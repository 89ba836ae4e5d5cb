import Mathlib.Data.Rat.Floor
import Mathlib.Algebra.Order.Field.Rat
import Mathlib.Tactic.NormNum
import Mathlib.Tactic.Linarith

set_option autoImplicit false

/-! # The floating-point operations of the controllers

The controllers compute with `f64` values: the SPI average, the window width, the batch size
and the epoch stride. `F64 F` collects the operations they use. The model of the code is
generic in `F`, so a result about it holds for whatever rounding the machine performs; the
instance for `ℚ` reads the arithmetic as exact rational arithmetic.
-/

namespace Pacer

/-- `u64::MAX`. -/
def u64Max : Nat := 2 ^ 64 - 1

/-- The operations of `f64`. -/
class F64 (F : Type) extends Add F, Sub F, Mul F, Div F where
  /-- A decimal constant of the source. -/
  lit : ℚ → F
  /-- `n as f64` -/
  ofU64 : Nat → F
  /-- `x as u64`: truncation, saturating at both ends. -/
  toU64 : F → Nat
  /-- `x.round()`: to the nearest integer, halves away from zero. -/
  round : F → F
  lt : F → F → Bool
  le : F → F → Bool

namespace F64

variable {F : Type} [F64 F]

/-- `x.min(y)` -/
def min (x y : F) : F := if lt y x then y else x

/-- `x.clamp(lo, hi)` -/
def clamp (x lo hi : F) : F := if lt x lo then lo else if lt hi x then hi else x

end F64

/-- Exact rational arithmetic. -/
instance : F64 ℚ where
  lit q := q
  ofU64 n := (n : ℚ)
  toU64 x := Nat.min x.floor.toNat u64Max
  round x := if 0 ≤ x then ((x + 1 / 2).floor : ℚ) else -((-x + 1 / 2).floor : ℚ)
  lt x y := decide (x < y)
  le x y := decide (x ≤ y)

namespace F64

@[simp] theorem lit_rat (q : ℚ) : (lit q : ℚ) = q := rfl

@[simp] theorem ofU64_rat (n : Nat) : (ofU64 n : ℚ) = n := rfl

@[simp] theorem lt_rat (x y : ℚ) : (lt x y = true) = (x < y) := decide_eq_true_eq

@[simp] theorem le_rat (x y : ℚ) : (le x y = true) = (x ≤ y) := decide_eq_true_eq

/-! ## Clamping -/

theorem le_clamp {x lo hi : ℚ} (h : lo ≤ hi) : lo ≤ clamp x lo hi := by
  simp only [clamp, lt_rat]
  split
  · exact le_rfl
  · rename_i hlo
    split
    · exact h
    · exact not_lt.mp hlo

theorem clamp_le {x lo hi : ℚ} (h : lo ≤ hi) : clamp x lo hi ≤ hi := by
  simp only [clamp, lt_rat]
  split
  · exact h
  · split
    · exact le_rfl
    · rename_i hhi
      exact not_lt.mp hhi

/-! ## Conversion to `u64`

Truncation and rounding keep the integers that bound a value. -/

theorem le_toU64 {n : Nat} {x : ℚ} (hn : n ≤ u64Max) (h : (n : ℚ) ≤ x) : n ≤ toU64 x := by
  have hfloor : (n : Int) ≤ x.floor := Rat.le_floor_iff.mpr (by exact_mod_cast h)
  exact Nat.le_min.mpr ⟨by omega, hn⟩

theorem toU64_le {n : Nat} {x : ℚ} (h : x ≤ n) : toU64 x ≤ n := by
  have hfloor : x.floor ≤ (n : Int) := by
    have := Rat.floor_monotone h
    rwa [show ((n : Nat) : ℚ) = ((n : Int) : ℚ) by simp, Rat.floor_intCast] at this
  exact (Nat.min_le_left _ _).trans (by omega)

theorem le_round {n : Nat} {x : ℚ} (h : (n : ℚ) ≤ x) : (n : ℚ) ≤ round x := by
  have hx : 0 ≤ x := le_trans (Nat.cast_nonneg n) h
  have hfloor : (n : Int) ≤ (x + 1 / 2).floor :=
    Rat.le_floor_iff.mpr (le_trans (by exact_mod_cast h) (le_add_of_nonneg_right (by norm_num)))
  show (n : ℚ) ≤ if 0 ≤ x then ((x + 1 / 2).floor : ℚ) else _
  rw [if_pos hx]
  exact_mod_cast hfloor

theorem round_of_nonneg {x : ℚ} (hx : 0 ≤ x) : round x = ((x + 1 / 2).floor : ℚ) := by
  show (if 0 ≤ x then ((x + 1 / 2).floor : ℚ) else _) = _
  rw [if_pos hx]

theorem round_mono {x y : ℚ} (hx : 0 ≤ x) (h : x ≤ y) : round x ≤ round y := by
  rw [round_of_nonneg hx, round_of_nonneg (hx.trans h)]
  exact_mod_cast Rat.floor_monotone (add_le_add_left h _)

theorem round_le {n : Nat} {x : ℚ} (hx : 0 ≤ x) (h : x ≤ n) : round x ≤ n := by
  have hfloor : (x + 1 / 2).floor < (n : Int) + 1 := by
    rw [Rat.floor_lt_iff]
    push_cast
    linarith
  rw [round_of_nonneg hx]
  exact_mod_cast Int.lt_add_one_iff.mp hfloor

theorem toU64_mono {x y : ℚ} (h : x ≤ y) : toU64 x ≤ toU64 y := by
  have hfloor : x.floor.toNat ≤ y.floor.toNat := Int.toNat_le_toNat (Rat.floor_monotone h)
  show Nat.min _ _ ≤ Nat.min _ _
  exact min_le_min_right u64Max hfloor

end F64

end Pacer
