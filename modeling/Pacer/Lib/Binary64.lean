import Mathlib.Data.Int.Log
import Mathlib.Data.Rat.Floor
import Mathlib.Algebra.Order.Field.Rat
import Mathlib.Tactic.Linarith
import Mathlib.Tactic.NormNum

set_option autoImplicit false

/-! # Rounding to binary64

The conversions of a positive rational to an integer and to a double, both to the nearest value
and to the even one of two equally near. A double has 53 significant bits; exponents are not
bounded here, which agrees with the format on its normal range. Rounding does not cross a value
that is representable: an integer (`halfEven_le`, `le_halfEven`) or a power of two
(`round_le_two_pow`, `two_pow_le_round`).
-/

namespace Binary64

/-- The nearest integer, the even one of two. -/
def halfEven (x : ℚ) : Int :=
  let f := x.floor
  if x - f < 1 / 2 then f
  else if 1 / 2 < x - f then f + 1
  else if f % 2 = 0 then f else f + 1

theorem le_halfEven {n : Int} {x : ℚ} (h : (n : ℚ) ≤ x) : n ≤ halfEven x := by
  have hfloor : n ≤ x.floor := Rat.le_floor_iff.mpr h
  unfold halfEven
  dsimp only
  split
  · exact hfloor
  · split
    · omega
    · split <;> omega

theorem halfEven_le {n : Int} {x : ℚ} (h : x ≤ n) : halfEven x ≤ n := by
  have hle : (x.floor : ℚ) ≤ x := Rat.floor_le x
  unfold halfEven
  dsimp only
  rcases lt_or_ge x.floor n with hlt | hge
  · split
    · exact hlt.le
    · split
      · omega
      · split <;> omega
  · -- then `x` is `n` itself
    have hn : (n : ℚ) ≤ x.floor := by exact_mod_cast hge
    have hself : x - x.floor < 1 / 2 := by linarith
    rw [if_pos hself]
    exact_mod_cast hle.trans h

/-- The distance of the doubles around `x`. -/
def ulp (x : ℚ) : ℚ := 2 ^ (Int.log 2 x - 52)

/-- `(double) x` for `x ≥ 0` -/
def round (x : ℚ) : ℚ := if x = 0 then 0 else halfEven (x / ulp x) * ulp x

theorem zpow_two_pos (k : Int) : (0 : ℚ) < 2 ^ k := zpow_pos (by norm_num) k

theorem ulp_pos (x : ℚ) : 0 < ulp x := zpow_two_pos _

/-- Powers of two from the lowest bit of `x` on are multiples of its `ulp`. -/
theorem two_pow_eq_mul_ulp {x : ℚ} {k : Int} (h : Int.log 2 x - 52 ≤ k) :
    (2 : ℚ) ^ k = ((2 ^ (k - (Int.log 2 x - 52)).toNat : Int) : ℚ) * ulp x := by
  have hnonneg : 0 ≤ k - (Int.log 2 x - 52) := by omega
  have hcast : (((k - (Int.log 2 x - 52)).toNat : Nat) : Int) = k - (Int.log 2 x - 52) :=
    Int.toNat_of_nonneg hnonneg
  push_cast
  rw [ulp, ← zpow_natCast, hcast, ← zpow_add₀ (by norm_num)]
  congr 1
  omega

theorem round_le_two_pow {x : ℚ} {k : Int} (h0 : 0 ≤ x) (h : x ≤ 2 ^ k) : round x ≤ 2 ^ k := by
  unfold round
  by_cases hx : x = 0
  · rw [if_pos hx]
    exact (zpow_two_pos k).le
  · have hpos : 0 < x := lt_of_le_of_ne h0 (Ne.symm hx)
    have hlog : Int.log 2 x ≤ k := by
      have hle : ((2 : Nat) : ℚ) ^ Int.log 2 x ≤ ((2 : Nat) : ℚ) ^ k :=
        (Int.zpow_log_le_self (by decide) hpos).trans h
      exact (zpow_le_zpow_iff_right₀ (by norm_num)).mp hle
    have hk := two_pow_eq_mul_ulp (x := x) (k := k) (by omega)
    rw [if_neg hx, hk]
    refine mul_le_mul_of_nonneg_right ?_ (ulp_pos x).le
    have hquot : x / ulp x ≤ ((2 ^ (k - (Int.log 2 x - 52)).toNat : Int) : ℚ) := by
      rw [div_le_iff₀ (ulp_pos x), ← hk]
      exact h
    exact_mod_cast halfEven_le hquot

theorem two_pow_le_round {x : ℚ} {k : Int} (h : 2 ^ k ≤ x) : 2 ^ k ≤ round x := by
  have hpos : 0 < x := lt_of_lt_of_le (zpow_two_pos k) h
  have hlog : k ≤ Int.log 2 x := (Int.zpow_le_iff_le_log (by decide) hpos).mp h
  -- the highest bit of `x` is kept, and it is at `k` or above
  have htop := two_pow_eq_mul_ulp (x := x) (k := Int.log 2 x) (by omega)
  have hquot : ((2 ^ (Int.log 2 x - (Int.log 2 x - 52)).toNat : Int) : ℚ) ≤ x / ulp x := by
    rw [le_div_iff₀ (ulp_pos x), ← htop]
    exact Int.zpow_log_le_self (by decide) hpos
  unfold round
  rw [if_neg hpos.ne']
  calc (2 : ℚ) ^ k ≤ 2 ^ Int.log 2 x := zpow_le_zpow_right₀ (by norm_num) hlog
    _ = ((2 ^ (Int.log 2 x - (Int.log 2 x - 52)).toNat : Int) : ℚ) * ulp x := htop
    _ ≤ halfEven (x / ulp x) * ulp x := by
        refine mul_le_mul_of_nonneg_right ?_ (ulp_pos x).le
        exact_mod_cast le_halfEven hquot

theorem round_nonneg {x : ℚ} (h : 0 ≤ x) : 0 ≤ round x := by
  unfold round
  split
  · exact le_rfl
  · have hquot : ((0 : Int) : ℚ) ≤ x / ulp x := by
      rw [Int.cast_zero]
      exact div_nonneg h (ulp_pos x).le
    have hint : (0 : ℚ) ≤ halfEven (x / ulp x) := by exact_mod_cast le_halfEven hquot
    exact mul_nonneg hint (ulp_pos x).le

end Binary64
