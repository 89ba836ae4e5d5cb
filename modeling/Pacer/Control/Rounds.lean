import Pacer.Core.PacerSystem
import Pacer.Control.Selector
import Pacer.Lib.Ema

set_option autoImplicit false

/-! # Rounds of the Rust controller

A round closes a window of operations: `resample_spi` folds its sample into the average, then
`reclaim_discrete` selects the mode and strides the epoch. Over the rationals the average is an
exponential moving average of samples in `[0, 1)`, the stride is never `0`, and so every round
goes through (`round_spec`).
-/

namespace Pacer

/-! ## The samples -/

/-- The sample of a window of `w` writes and `s` snapshots. -/
def winSpi (w s : Nat) : ℚ := s / (w + s + 1 : Nat)

theorem winSpi_nonneg (w s : Nat) : 0 ≤ winSpi w s := by
  unfold winSpi
  positivity

theorem winSpi_lt_one (w s : Nat) : winSpi w s < 1 := by
  unfold winSpi
  rw [div_lt_one (by positivity)]
  exact_mod_cast (by omega : s < w + s + 1)

theorem spiEmaAlpha_pos : (0 : ℚ) < spiEmaAlpha := by
  norm_num [spiEmaAlpha]

theorem spiEmaAlpha_le_one : (spiEmaAlpha : ℚ) ≤ 1 := by
  norm_num [spiEmaAlpha]

namespace PacerSystem

/-- **The average is an exponential moving average of the samples.** -/
theorem nextEma_eq (ema : ℚ) (w s : Nat) :
    nextEma ema w s = Ema.step spiEmaAlpha (winSpi w s) ema := rfl

theorem nextEma_mem {ema : ℚ} (h : 0 ≤ ema ∧ ema ≤ 1) (w s : Nat) :
    0 ≤ nextEma ema w s ∧ nextEma ema w s ≤ 1 := by
  rw [nextEma_eq]
  constructor
  · exact Ema.le_step spiEmaAlpha_pos.le spiEmaAlpha_le_one h.1 (winSpi_nonneg w s)
  · exact Ema.step_le spiEmaAlpha_pos.le spiEmaAlpha_le_one h.2 (winSpi_lt_one w s).le

/-! ## The stride -/

theorem computeEpochStride_pos {spi : ℚ} (h : 0 ≤ spi) : 0 < computeEpochStride spi := by
  have hbase : ((1 : Nat) : ℚ) ≤ F64.ofU64 baseStride * (F64.lit 1 + F64.lit 4 * spi) := by
    show ((1 : Nat) : ℚ) ≤ ((16 : Nat) : ℚ) * (1 + 4 * spi)
    push_cast
    linarith
  exact F64.le_toU64 (by decide) (F64.le_round hbase)

/-- `reclaim_discrete` selects the mode, and strides the epoch outside of
`ConservativeHold`. -/
theorem reclaimDiscrete_eq {F P : Type} [F64 F] (sys : PacerSystem F) (t : ThreadLocalState F P)
    (h : computeEpochStride t.spiEma ≠ 0) :
    sys.reclaimDiscrete t = some (
      let mode := selectGcModeWithHysteresis t.spiEma t.gcMode
      if mode ≠ .conservativeHold ∧ t.opCounter % computeEpochStride t.spiEma = 0 then
        ({ sys with globalEpoch := sys.globalEpoch + 1 },
          { t with gcMode := mode, failStreak := 0 })
      else (sys, { t with gcMode := mode })) := by
  -- the two arms outside of `ConservativeHold` differ in the mode only
  have hstride : ∀ mode, (strides t.opCounter (computeEpochStride t.spiEma)).map
      (fun b => if b then sys.stepEpoch { t with gcMode := mode }
        else (sys, { t with gcMode := mode }))
      = some (if t.opCounter % computeEpochStride t.spiEma = 0 then
          ({ sys with globalEpoch := sys.globalEpoch + 1 },
            { t with gcMode := mode, failStreak := 0 })
        else (sys, { t with gcMode := mode })) := by
    intro mode
    rw [strides, if_neg h, Option.map_some]
    by_cases hdvd : t.opCounter % computeEpochStride t.spiEma = 0
    · simp [hdvd, stepEpoch, streakAfter]
    · simp [hdvd]
  unfold reclaimDiscrete
  dsimp only
  cases selectGcModeWithHysteresis t.spiEma t.gcMode with
  | conservativeHold => rfl
  | aggressiveEbr =>
      simp only [hstride]
      simp
  | amortisedFree =>
      simp only [hstride]
      simp

/-- What `reclaim_discrete` does to the controller and to the epoch. -/
theorem reclaimDiscrete_spec {F P : Type} [F64 F] (sys : PacerSystem F)
    (t : ThreadLocalState F P) (h : computeEpochStride t.spiEma ≠ 0) :
    ∃ sys' t', sys.reclaimDiscrete t = some (sys', t') ∧ t'.winWrites = t.winWrites
      ∧ t'.winSnaps = t.winSnaps ∧ t'.spiEma = t.spiEma
      ∧ t'.gcMode = selectGcModeWithHysteresis t.spiEma t.gcMode
      ∧ sys'.globalEpoch = sys.globalEpoch
        + if t'.gcMode ≠ .conservativeHold ∧ t.opCounter % computeEpochStride t.spiEma = 0
          then 1 else 0 := by
  rw [reclaimDiscrete_eq sys t h]
  dsimp only
  split
  · rename_i hstride
    exact ⟨_, _, rfl, rfl, rfl, rfl, rfl, (if_pos hstride).symm ▸ rfl⟩
  · rename_i hstride
    exact ⟨_, _, rfl, rfl, rfl, rfl, rfl, (if_neg hstride).symm ▸ rfl⟩

end PacerSystem

/-! ## Rounds -/

/-- The thread's state after `w` more writes and `s` more snapshots. -/
def ThreadLocalState.window {F P : Type} (t : ThreadLocalState F P) (w s : Nat) :
    ThreadLocalState F P :=
  { t with
    winWrites := t.winWrites + w
    winSnaps := t.winSnaps + s
    opCounter := t.opCounter + w }

namespace PacerSystem

variable {P : Type}

/-- The end of a window, as in `post_write`. -/
def closeWindow {F : Type} [F64 F] (sys : PacerSystem F) (t : ThreadLocalState F P) :
    Option (PacerSystem F × ThreadLocalState F P) :=
  let r := sys.resampleSpi t
  r.1.reclaimDiscrete r.2

/-- Round after round, each with its counts of writes and snapshots. -/
def rounds {F : Type} [F64 F] (sys : PacerSystem F) (t : ThreadLocalState F P) :
    List (Nat × Nat) → Option (PacerSystem F × ThreadLocalState F P)
  | [] => some (sys, t)
  | (w, s) :: windows =>
      match sys.closeWindow (t.window w s) with
      | none => none
      | some (sys, t) => sys.rounds t windows

/-- Between two windows: the counters are zero and the average is in `[0, 1]`. -/
structure AtStart (t : ThreadLocalState ℚ P) : Prop where
  winWrites : t.winWrites = 0
  winSnaps : t.winSnaps = 0
  spiEma : 0 ≤ t.spiEma ∧ t.spiEma ≤ 1

/-- **One round**: the average takes in the sample and the mode follows the average. -/
theorem closeWindow_spec (sys : PacerSystem ℚ) {t : ThreadLocalState ℚ P} (ht : AtStart t)
    {w s : Nat} (hws : 0 < w + s) :
    ∃ sys' t', sys.closeWindow (t.window w s) = some (sys', t') ∧ AtStart t'
      ∧ t'.spiEma = nextEma t.spiEma w s
      ∧ t'.gcMode = selectGcModeWithHysteresis (nextEma t.spiEma w s) t.gcMode := by
  have hmem := nextEma_mem ht.spiEma w s
  -- the window starts from zero counters, so the sample is that of `w` and `s`
  have hresample : (sys.resampleSpi (t.window w s)).2
      = { t.window w s with spiEma := nextEma t.spiEma w s, winWrites := 0, winSnaps := 0 } := by
    have hpos : ¬ w + s = 0 := by omega
    simp only [resampleSpi, ThreadLocalState.window, ht.winWrites, ht.winSnaps, Nat.zero_add,
      if_neg hpos]
  have hstride : computeEpochStride (sys.resampleSpi (t.window w s)).2.spiEma ≠ 0 := by
    rw [hresample]
    exact (computeEpochStride_pos hmem.1).ne'
  obtain ⟨sys', t', hrun, hw, hs, hema, hmode, -⟩ :=
    reclaimDiscrete_spec (sys.resampleSpi (t.window w s)).1 _ hstride
  rw [hresample] at hw hs hema hmode
  exact ⟨sys', t', hrun, ⟨hw, hs, hema ▸ hmem⟩, hema, hmode⟩

/-! ## Round after round -/

/-- The average and the mode after each of the windows. -/
def controller (ema : ℚ) (mode : GcMode) : List (Nat × Nat) → ℚ × GcMode
  | [] => (ema, mode)
  | (w, s) :: windows =>
      controller (nextEma ema w s) (selectGcModeWithHysteresis (nextEma ema w s) mode) windows

/-- **Every round goes through**, and the controller sees nothing but the samples. -/
theorem rounds_spec (sys : PacerSystem ℚ) {t : ThreadLocalState ℚ P} (ht : AtStart t)
    {windows : List (Nat × Nat)} (hpos : ∀ x ∈ windows, 0 < x.1 + x.2) :
    ∃ sys' t', sys.rounds t windows = some (sys', t') ∧ AtStart t'
      ∧ (t'.spiEma, t'.gcMode) = controller t.spiEma t.gcMode windows := by
  induction windows generalizing sys t with
  | nil => exact ⟨sys, t, rfl, ht, rfl⟩
  | cons x windows ih =>
      obtain ⟨w, s⟩ := x
      obtain ⟨sys₁, t₁, hrun, ht₁, hema, hmode⟩ :=
        closeWindow_spec sys ht (hpos (w, s) List.mem_cons_self)
      obtain ⟨sys', t', hrest, ht', hctl⟩ :=
        ih sys₁ ht₁ (fun y hy => hpos y (List.mem_cons_of_mem _ hy))
      refine ⟨sys', t', ?_, ht', ?_⟩
      · rw [rounds, hrun]
        exact hrest
      · rw [hctl, hema, hmode]
        rfl

end PacerSystem

end Pacer
