import Pacer.Control.Selector

set_option autoImplicit false

/-! # Noise within the dead-bands

Two SPI samples at most `2 * HYSTERESIS` apart allow a tier in common: what the one exceeds by
`HYSTERESIS` the other does not undercut by it. Along samples that are pairwise so close the mode
therefore moves one way only, from whatever mode they find.
-/

namespace Pacer

open Hysteresis

theorem tierAbove_sub (w h d spi : ℚ) :
    tierAbove w h (spi - d) = tierAbove (w + d) (h + d) spi := by
  simp only [tierAbove, sub_le_iff_le_add]

/-- Samples within twice the half-width of a dead-band allow a tier in common. -/
theorem modeBand_lo_le_hi {spi spi' : ℚ} (h : spi - spi' ≤ 2 * hysteresis) :
    modeBand.lo spi ≤ modeBand.hi spi' := by
  have hwidth : (2 * hysteresis : ℚ) = 1 / 10 := by norm_num [hysteresis]
  calc modeBand.lo spi
      = tierAbove (1 / 4 + 1 / 10) (11 / 20 + 1 / 10) spi := by norm_num [modeBand]
    _ = tierAbove (1 / 4) (11 / 20) (spi - 1 / 10) := (tierAbove_sub _ _ _ _).symm
    _ ≤ modeBand.hi spi' := tierAbove_anti le_rfl le_rfl (by linarith)

/-- A list of modes that moves one way changes at most twice. -/
theorem changes_le_two {modes : List GcMode}
    (h : modes.Pairwise (· ≤ ·) ∨ modes.Pairwise (· ≥ ·)) : changes modes ≤ 2 := by
  cases modes with
  | nil => exact Nat.zero_le _
  | cons mode modes =>
      rcases h with h | h
      · have hup := changes_le_of_le GcMode.tier (n := 2)
          (h.imp (fun hle hne => lt_of_le_of_ne hle (GcMode.tier_injective.ne hne)))
          (fun m _ => m.tier_le)
        omega
      · have hdown := changes_le_of_le (fun m => 2 - m.tier) (n := 2)
          (h.imp (fun {m m'} hge hne => by
            have hlt : m'.tier < m.tier :=
              lt_of_le_of_ne hge (GcMode.tier_injective.ne (Ne.symm hne))
            have := m.tier_le
            show 2 - m.tier < 2 - m'.tier
            omega))
          (fun m _ => Nat.sub_le _ _)
        omega

/-- **Hysteresis excludes flapping**: along samples that lie within `2 * HYSTERESIS` of each
other the mode moves one way only. It changes at most twice and never comes back to a mode that
it has left. -/
theorem modes_never_flap (prev : GcMode) (spis : List ℚ)
    (hspis : ∀ spi ∈ spis, ∀ spi' ∈ spis, spi - spi' ≤ 2 * hysteresis) :
    let modes := spis.scanl (fun mode spi => selectGcModeWithHysteresis spi mode) prev
    (modes.Pairwise (· ≤ ·) ∨ modes.Pairwise (· ≥ ·))
      ∧ changes modes ≤ 2
      ∧ ∀ i j k, ∀ (_ : i ≤ j) (_ : j ≤ k) (_ : k < modes.length),
          modes[i] = modes[k] → modes[j] = modes[i] := by
  intro modes
  have honeWay : modes.Pairwise (· ≤ ·) ∨ modes.Pairwise (· ≥ ·) := by
    have hfollow : (fun mode spi => selectGcModeWithHysteresis spi mode) = modeBand.follow := by
      funext mode spi
      exact selectGcModeWithHysteresis_eq spi mode
    show (spis.scanl _ prev).Pairwise _ ∨ (spis.scanl _ prev).Pairwise _
    rw [hfollow]
    exact modeBand.pairwise_follow
      (fun spi hspi spi' hspi' => modeBand_lo_le_hi (hspis spi hspi spi' hspi')) prev
  exact ⟨honeWay, changes_le_two honeWay,
    fun i j k hij hjk hk => getElem_eq_of_pairwise honeWay hij hjk hk⟩

theorem modes_never_flap_across_threshold :
    let modes := [17 / 50, 9 / 25, 3 / 10, 13 / 50].scanl
      (fun mode spi => selectGcModeWithHysteresis (spi : ℚ) mode) .aggressiveEbr
    (modes.Pairwise (· ≤ ·) ∨ modes.Pairwise (· ≥ ·))
      ∧ changes modes ≤ 2
      ∧ ∀ i j k, ∀ (_ : i ≤ j) (_ : j ≤ k) (_ : k < modes.length),
          modes[i] = modes[k] → modes[j] = modes[i] :=
  modes_never_flap .aggressiveEbr [17 / 50, 9 / 25, 3 / 10, 13 / 50] (by decide +kernel)

end Pacer
