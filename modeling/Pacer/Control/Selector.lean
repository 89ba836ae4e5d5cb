import Pacer.Core.ThreadState
import Pacer.Lib.Hysteresis
import Mathlib.Tactic.Linarith
import Mathlib.Tactic.NormNum

set_option autoImplicit false

/-! # The mode selector as a hysteresis

Over the rationals `select_gc_mode_with_hysteresis` moves the previous mode by the least amount
into the range of the tiers that the SPI allows: from below each threshold has to be exceeded by
`HYSTERESIS`, from above it has to be undercut by it. Everything about the nine transitions that
the development uses follows from this form (`selectGcModeWithHysteresis_eq`): selecting again
changes nothing, outside the dead-bands the previous mode does not matter, and noise that fits
into a dead-band moves the mode one way only.
-/

namespace Pacer

open Hysteresis

/-! ## The order of the tiers -/

/-- `AggressiveEbr < AmortisedFree < ConservativeHold` -/
def GcMode.tier : GcMode → Nat
  | .aggressiveEbr => 0
  | .amortisedFree => 1
  | .conservativeHold => 2

theorem GcMode.tier_injective : Function.Injective GcMode.tier := by
  intro m m' h
  cases m <;> cases m' <;> first | rfl | cases h

instance : LinearOrder GcMode := LinearOrder.lift' GcMode.tier GcMode.tier_injective

theorem GcMode.tier_le (m : GcMode) : m.tier ≤ 2 := by
  cases m <;> decide

/-! ## The band -/

/-- The tier above the thresholds that `spi` exceeds. -/
def tierAbove (writeHeavy snapHeavy spi : ℚ) : GcMode :=
  if spi ≤ writeHeavy then .aggressiveEbr
  else if spi ≤ snapHeavy then .amortisedFree
  else .conservativeHold

theorem selectGcMode_eq (spi : ℚ) : selectGcMode spi = tierAbove (3 / 10) (6 / 10) spi := by
  simp only [selectGcMode, tierAbove, spiWriteHeavy, spiSnapHeavy, F64.le_rat, F64.lit_rat]

/-- Higher thresholds, lower tiers. -/
theorem tierAbove_anti {w w' h h' spi spi' : ℚ} (hw : w ≤ w') (hh : h ≤ h') (hspi : spi' ≤ spi) :
    tierAbove w' h' spi' ≤ tierAbove w h spi := by
  unfold tierAbove
  by_cases h₁ : spi' ≤ w'
  · rw [if_pos h₁]
    exact Nat.zero_le _
  · rw [if_neg h₁, if_neg (show ¬ spi ≤ w by linarith)]
    by_cases h₂ : spi' ≤ h'
    · rw [if_pos h₂]
      split <;> decide
    · rw [if_neg h₂, if_neg (show ¬ spi ≤ h by linarith)]

theorem tierAbove_eq_bot {w h spi : ℚ} (hs : spi ≤ w) : tierAbove w h spi = .aggressiveEbr :=
  if_pos hs

theorem tierAbove_eq_top {w h spi : ℚ} (hwh : w ≤ h) (hs : h < spi) :
    tierAbove w h spi = .conservativeHold := by
  rw [tierAbove, if_neg (not_le.mpr (hwh.trans_lt hs)), if_neg (not_le.mpr hs)]

theorem tierAbove_le_mid {w h spi : ℚ} (hs : spi ≤ h) : tierAbove w h spi ≤ .amortisedFree := by
  unfold tierAbove
  rw [if_pos hs]
  split <;> decide

theorem mid_le_tierAbove {w h spi : ℚ} (hs : w < spi) : .amortisedFree ≤ tierAbove w h spi := by
  rw [tierAbove, if_neg (not_le.mpr hs)]
  split <;> decide

/-- Each threshold raised by `HYSTERESIS` on the way up and lowered by it on the way down. -/
def modeBand : Band ℚ GcMode where
  lo := tierAbove (7 / 20) (13 / 20)
  hi := tierAbove (1 / 4) (11 / 20)
  lo_le_hi := fun _ => tierAbove_anti (by norm_num) (by norm_num) le_rfl

/-- **The selector follows the band.** -/
theorem selectGcModeWithHysteresis_eq (spi : ℚ) (prev : GcMode) :
    selectGcModeWithHysteresis spi prev = modeBand.follow prev spi := by
  have hwu : (spiWriteHeavy + hysteresis : ℚ) = 7 / 20 := by norm_num [spiWriteHeavy, hysteresis]
  have hwd : (spiWriteHeavy - hysteresis : ℚ) = 1 / 4 := by norm_num [spiWriteHeavy, hysteresis]
  have hsu : (spiSnapHeavy + hysteresis : ℚ) = 13 / 20 := by norm_num [spiSnapHeavy, hysteresis]
  have hsd : (spiSnapHeavy - hysteresis : ℚ) = 11 / 20 := by norm_num [spiSnapHeavy, hysteresis]
  cases prev with
  | aggressiveEbr =>
      -- nothing is below, so the mode is the lowest that is allowed
      rw [modeBand.follow_eq_lo (Nat.zero_le _)]
      simp only [selectGcModeWithHysteresis, hwu, hsu, F64.lt_rat, modeBand]
      by_cases h₁ : 13 / 20 < spi
      · rw [if_pos h₁, tierAbove_eq_top (by norm_num) h₁]
      · rw [if_neg h₁, tierAbove, if_pos (not_lt.mp h₁)]
        by_cases h₂ : 7 / 20 < spi
        · rw [if_pos h₂, if_neg (not_le.mpr h₂)]
        · rw [if_neg h₂, if_pos (not_lt.mp h₂)]
  | amortisedFree =>
      simp only [selectGcModeWithHysteresis, hwd, hsu, F64.lt_rat, F64.le_rat]
      by_cases h₁ : spi ≤ 1 / 4
      · have hhi : modeBand.hi spi = .aggressiveEbr := tierAbove_eq_bot h₁
        rw [if_pos h₁, modeBand.follow_eq_hi (hhi ▸ Nat.zero_le _), hhi]
      · rw [if_neg h₁]
        by_cases h₂ : 13 / 20 < spi
        · have hlo : modeBand.lo spi = .conservativeHold := tierAbove_eq_top (by norm_num) h₂
          rw [if_pos h₂, modeBand.follow_eq_lo (hlo ▸ GcMode.tier_le _), hlo]
        · rw [if_neg h₂, modeBand.follow_eq_self (tierAbove_le_mid (not_lt.mp h₂))
            (mid_le_tierAbove (not_le.mp h₁))]
  | conservativeHold =>
      rw [modeBand.follow_eq_hi (GcMode.tier_le _)]
      simp only [selectGcModeWithHysteresis, hwd, hsd, F64.le_rat, modeBand, tierAbove]

/-! ## Consequences -/

/-- **Selecting again changes nothing.** -/
theorem select_select (spi : ℚ) (prev : GcMode) :
    selectGcModeWithHysteresis spi (selectGcModeWithHysteresis spi prev)
      = selectGcModeWithHysteresis spi prev := by
  rw [selectGcModeWithHysteresis_eq, selectGcModeWithHysteresis_eq, Band.follow_follow]

/-- The SPI values at which the previous mode does not matter. -/
def OutsideDeadBands (spi : ℚ) : Prop :=
  spi < 1 / 4 ∨ (7 / 20 < spi ∧ spi < 11 / 20) ∨ 13 / 20 < spi

theorem selectGcMode_low {spi : ℚ} (h : spi < 1 / 4) : selectGcMode spi = .aggressiveEbr := by
  rw [selectGcMode_eq, tierAbove_eq_bot (by linarith)]

theorem selectGcMode_mid {spi : ℚ} (hlo : 7 / 20 < spi) (hhi : spi < 11 / 20) :
    selectGcMode spi = .amortisedFree := by
  rw [selectGcMode_eq]
  exact le_antisymm (tierAbove_le_mid (by linarith)) (mid_le_tierAbove (by linarith))

theorem selectGcMode_high {spi : ℚ} (h : 13 / 20 < spi) :
    selectGcMode spi = .conservativeHold := by
  rw [selectGcMode_eq, tierAbove_eq_top (by norm_num) (by linarith)]

/-- Outside the dead-bands one tier is allowed, that of the stateless classification. -/
theorem OutsideDeadBands.band {spi : ℚ} (h : OutsideDeadBands spi) :
    modeBand.lo spi = selectGcMode spi ∧ modeBand.hi spi = selectGcMode spi := by
  rcases h with h | ⟨hlo, hhi⟩ | h
  · rw [selectGcMode_low h]
    exact ⟨tierAbove_eq_bot (by linarith), tierAbove_eq_bot h.le⟩
  · rw [selectGcMode_mid hlo hhi]
    exact ⟨le_antisymm (tierAbove_le_mid (by linarith)) (mid_le_tierAbove hlo),
      le_antisymm (tierAbove_le_mid hhi.le) (mid_le_tierAbove (by linarith))⟩
  · rw [selectGcMode_high h]
    exact ⟨tierAbove_eq_top (by norm_num) h, tierAbove_eq_top (by norm_num) (by linarith)⟩

/-- **Outside the dead-bands the selector forgets the previous mode.** -/
theorem OutsideDeadBands.select {spi : ℚ} (h : OutsideDeadBands spi) (prev : GcMode) :
    selectGcModeWithHysteresis spi prev = selectGcMode spi := by
  rw [selectGcModeWithHysteresis_eq,
    modeBand.follow_eq_of_lo_eq_hi (h.band.1.trans h.band.2.symm), h.band.1]

end Pacer
