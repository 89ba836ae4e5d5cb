import Pacer.Control.Rounds
import Pacer.Lib.Run

set_option autoImplicit false

/-! # The range of the pacing parameters

Any number of threads count writes and snapshots and resample their SPI. The average is a
thread's own; the difference to its last value is published in `delta_spi`, where every thread
reads it. `resample_spi` stores `approx_spi` and `delta_spi` in two instructions, and other
threads take steps between them.

The samples are in `[0, 1)`, so is every average, and an average moves by less than
`SPI_EMA_ALPHA` in a step (`SpiInv`). On this range `compute_batch_k` and
`compute_epoch_stride` stay within their bounds and are monotone.
-/

namespace Pacer

/-! ## The averages of all threads -/

/-- Where a thread stands in `resample_spi`. -/
inductive SpiPc (F : Type) where
  | idle
  /-- `approx_spi` is stored; `delta_spi.store()` and the reset of the window are to come. -/
  | storeDelta (prevEma : F)

inductive SpiAction (T : Type) where
  /-- `win_writes += 1` -/
  | countWrite (t : T)
  /-- `win_snaps += 1` -/
  | countSnap (t : T)
  /-- `resample_spi` up to `approx_spi.store()` -/
  | resample (t : T)
  /-- the rest of `resample_spi` -/
  | storeDelta (t : T)
  deriving DecidableEq

structure SpiState (F T P : Type) where
  sys : PacerSystem F
  tls : T → ThreadLocalState F P
  pc : T → SpiPc F

namespace SpiState

open PacerSystem

section

variable {F T P : Type} [F64 F] [DecidableEq T]

/-- All threads are `ThreadLocalState::new`, each with its own `tid`. -/
def new (tid : T → Nat) : SpiState F T P :=
  { sys := PacerSystem.new, tls := fun t => ThreadLocalState.new (tid t), pc := fun _ => .idle }

/-- Thread `t` gets the local state `tl` and the program counter `p`. -/
def setThread (s : SpiState F T P) (t : T) (tl : ThreadLocalState F P) (p : SpiPc F) :
    SpiState F T P :=
  { s with tls := Function.update s.tls t tl, pc := Function.update s.pc t p }

def step (s : SpiState F T P) : SpiAction T → Option (SpiState F T P)
  | .countWrite t =>
      match s.pc t with
      | .idle =>
          let tl := s.tls t
          some (s.setThread t { tl with winWrites := tl.winWrites + 1 } .idle)
      | .storeDelta _ => none
  | .countSnap t =>
      match s.pc t with
      | .idle =>
          let tl := s.tls t
          some (s.setThread t { tl with winSnaps := tl.winSnaps + 1 } .idle)
      | .storeDelta _ => none
  | .resample t =>
      match s.pc t with
      | .idle =>
          let tl := s.tls t
          if tl.winWrites + tl.winSnaps = 0 then some s
          else
            let prevEma := tl.spiEma
            let spiEma := nextEma prevEma tl.winWrites tl.winSnaps
            some ({ s with sys := { s.sys with approxSpi := spiEma } }.setThread t
              { tl with spiEma := spiEma } (.storeDelta prevEma))
      | .storeDelta _ => none
  | .storeDelta t =>
      match s.pc t with
      | .idle => none
      | .storeDelta prevEma =>
          let tl := s.tls t
          some ({ s with sys := { s.sys with deltaSpi := tl.spiEma - prevEma } }.setThread t
            { tl with winWrites := 0, winSnaps := 0 } .idle)

/-- What a step can do. -/
theorem step_cases {s s' : SpiState F T P} {a : SpiAction T} (h : s.step a = some s') :
    (∃ t w n, s' = s.setThread t { s.tls t with winWrites := w, winSnaps := n } .idle)
    ∨ s' = s
    ∨ (∃ t w n, s' = { s with
          sys := { s.sys with approxSpi := nextEma (s.tls t).spiEma w n } }.setThread t
        { s.tls t with spiEma := nextEma (s.tls t).spiEma w n }
        (.storeDelta (s.tls t).spiEma))
    ∨ (∃ t prevEma, s.pc t = .storeDelta prevEma ∧ s' = { s with
          sys := { s.sys with deltaSpi := (s.tls t).spiEma - prevEma } }.setThread t
        { s.tls t with winWrites := 0, winSnaps := 0 } .idle) := by
  cases a with
  | countWrite t =>
      cases hpc : s.pc t with
      | storeDelta prevEma => simp [step, hpc] at h
      | idle =>
          simp only [step, hpc, Option.some.injEq] at h
          exact Or.inl ⟨t, _, _, h.symm⟩
  | countSnap t =>
      cases hpc : s.pc t with
      | storeDelta prevEma => simp [step, hpc] at h
      | idle =>
          simp only [step, hpc, Option.some.injEq] at h
          exact Or.inl ⟨t, _, _, h.symm⟩
  | resample t =>
      cases hpc : s.pc t with
      | storeDelta prevEma => simp [step, hpc] at h
      | idle =>
          simp only [step, hpc] at h
          split at h
          · exact Or.inr (Or.inl (Option.some.inj h).symm)
          · exact Or.inr (Or.inr (Or.inl ⟨t, _, _, (Option.some.inj h).symm⟩))
  | storeDelta t =>
      cases hpc : s.pc t with
      | idle => simp [step, hpc] at h
      | storeDelta prevEma =>
          simp only [step, hpc, Option.some.injEq] at h
          exact Or.inr (Or.inr (Or.inr ⟨t, prevEma, hpc, h.symm⟩))

end

variable {T P : Type} [DecidableEq T]

/-- The averages, the published difference, and the differences about to be published. -/
structure SpiInv (s : SpiState ℚ T P) : Prop where
  spiEma : ∀ t, 0 ≤ (s.tls t).spiEma ∧ (s.tls t).spiEma < 1
  deltaSpi : |s.sys.deltaSpi| < spiEmaAlpha
  pending : ∀ t prevEma, s.pc t = .storeDelta prevEma →
    |(s.tls t).spiEma - prevEma| < spiEmaAlpha

omit [DecidableEq T] in
theorem spiInv_new (tid : T → Nat) : SpiInv (new tid : SpiState ℚ T P) := by
  refine ⟨fun t => ⟨le_rfl, ?_⟩, ?_, fun t prevEma h => by cases h⟩
  · show (0 : ℚ) < 1
    norm_num
  · show |(0 : ℚ)| < spiEmaAlpha
    rw [abs_zero]
    exact spiEmaAlpha_pos

theorem nextEma_lt_one {ema : ℚ} (h : ema < 1) (w n : Nat) : nextEma ema w n < 1 := by
  rw [nextEma_eq]
  exact Ema.step_lt spiEmaAlpha_pos spiEmaAlpha_le_one h.le (winSpi_lt_one w n)

/-- One window moves the average by less than `SPI_EMA_ALPHA`. -/
theorem abs_nextEma_sub_lt {ema : ℚ} (h : 0 ≤ ema ∧ ema < 1) (w n : Nat) :
    |nextEma ema w n - ema| < spiEmaAlpha := by
  have hdist : |winSpi w n - ema| < 1 := by
    have h0 := winSpi_nonneg w n
    have h1 := winSpi_lt_one w n
    exact abs_sub_lt_iff.mpr ⟨by linarith [h.1], by linarith [h.2]⟩
  rw [nextEma_eq]
  exact Ema.abs_step_sub_self_lt spiEmaAlpha_pos hdist

/-- A thread's new state keeps the invariant when its average is in range and what it is about
to publish is. -/
theorem SpiInv.setThread {s : SpiState ℚ T P} (hI : SpiInv s) {t : T}
    {tl : ThreadLocalState ℚ P} {p : SpiPc ℚ} (hema : 0 ≤ tl.spiEma ∧ tl.spiEma < 1)
    (hp : ∀ prevEma, p = .storeDelta prevEma → |tl.spiEma - prevEma| < spiEmaAlpha) :
    SpiInv (s.setThread t tl p) := by
  refine ⟨fun u => ?_, hI.deltaSpi, fun u prevEma hu => ?_⟩
  · by_cases htu : u = t
    · subst htu
      simpa [SpiState.setThread] using hema
    · simpa [SpiState.setThread, htu] using hI.spiEma u
  · by_cases htu : u = t
    · subst htu
      simp only [SpiState.setThread, Function.update_self] at hu ⊢
      exact hp prevEma hu
    · simp only [SpiState.setThread, Function.update_of_ne htu] at hu ⊢
      exact hI.pending u prevEma hu

theorem SpiInv.step {s s' : SpiState ℚ T P} {a : SpiAction T} (hI : SpiInv s)
    (h : s.step a = some s') : SpiInv s' := by
  rcases step_cases h with ⟨t, w, n, rfl⟩ | rfl | ⟨t, w, n, rfl⟩ | ⟨t, prevEma, hpc, rfl⟩
  · exact hI.setThread (hI.spiEma t) (fun _ hp => by cases hp)
  · exact hI
  · -- the new average; the difference is published by the next instruction of `t`
    have hlo := (nextEma_mem ⟨(hI.spiEma t).1, (hI.spiEma t).2.le⟩ w n).1
    have hhi := nextEma_lt_one (hI.spiEma t).2 w n
    have hstored : SpiInv { s with
        sys := { s.sys with approxSpi := nextEma (s.tls t).spiEma w n } } :=
      ⟨hI.spiEma, hI.deltaSpi, hI.pending⟩
    refine hstored.setThread ⟨hlo, hhi⟩ (fun prevEma hp => ?_)
    cases hp
    exact abs_nextEma_sub_lt (hI.spiEma t) w n
  · have hstored : SpiInv { s with
        sys := { s.sys with deltaSpi := (s.tls t).spiEma - prevEma } } :=
      ⟨hI.spiEma, hI.pending t prevEma hpc, hI.pending⟩
    exact hstored.setThread (hI.spiEma t) (fun _ hp => by cases hp)

theorem SpiInv.of_run {tid : T → Nat} {s : SpiState ℚ T P}
    {tr : List (Machine.Trans (SpiState ℚ T P) (SpiAction T))}
    (h : Machine.Run SpiState.step (new tid) tr s) : SpiInv s :=
  h.invariant (spiInv_new tid) (fun _ _ _ hI hs => hI.step hs)

end SpiState

/-! ## The batch size -/

namespace PacerSystem

/-- The factor of `compute_batch_k` for the trend. -/
def trendFactor (deltaSpi : ℚ) : ℚ :=
  if 5 / 100 < deltaSpi then 1 - deltaSpi * (5 / 10) else 1

theorem computeBatchK_eq (spi deltaSpi : ℚ) :
    computeBatchK spi deltaSpi
      = max (F64.toU64 (64 * (1 - spi) * trendFactor deltaSpi)) minBatch := by
  unfold computeBatchK trendFactor
  simp only [F64.lt_rat, F64.lit_rat, F64.ofU64_rat, maxBatch]
  split <;> simp

theorem trendFactor_nonneg {deltaSpi : ℚ} (h : deltaSpi < 2) : 0 ≤ trendFactor deltaSpi := by
  unfold trendFactor
  split <;> linarith

theorem trendFactor_le_one (deltaSpi : ℚ) : trendFactor deltaSpi ≤ 1 := by
  unfold trendFactor
  split <;> linarith

/-- The factor does not rise, also where `delta_spi` passes the threshold. -/
theorem trendFactor_anti {d d' : ℚ} (h : d ≤ d') : trendFactor d' ≤ trendFactor d := by
  unfold trendFactor
  by_cases hd : 5 / 100 < d
  · rw [if_pos hd, if_pos (hd.trans_le h)]
    linarith
  · rw [if_neg hd]
    exact trendFactor_le_one d'

theorem computeBatchK_mem {spi deltaSpi : ℚ} (h0 : 0 ≤ spi) (h1 : spi < 1) :
    minBatch ≤ computeBatchK spi deltaSpi ∧ computeBatchK spi deltaSpi ≤ maxBatch := by
  rw [computeBatchK_eq]
  refine ⟨le_max_right _ _, max_le ?_ (by decide)⟩
  apply F64.toU64_le
  have hspi : 0 ≤ 1 - spi := by linarith
  calc 64 * (1 - spi) * trendFactor deltaSpi
      ≤ 64 * (1 - spi) * 1 := by
        gcongr
        exact trendFactor_le_one deltaSpi
    _ ≤ 64 := by linarith
    _ = (maxBatch : ℚ) := by norm_num [maxBatch]

/-- **The batch does not grow with the SPI, nor with its trend.** -/
theorem computeBatchK_anti {spi spi' d d' : ℚ} (h : spi ≤ spi') (h1 : spi' < 1) (hd : d ≤ d')
    (hd' : d' < 2) : computeBatchK spi' d' ≤ computeBatchK spi d := by
  rw [computeBatchK_eq, computeBatchK_eq]
  apply max_le_max _ le_rfl
  apply F64.toU64_mono
  have hspi' : 0 ≤ 1 - spi' := by linarith
  have hfactor := trendFactor_nonneg hd'
  calc 64 * (1 - spi') * trendFactor d'
      ≤ 64 * (1 - spi) * trendFactor d' := by gcongr
    _ ≤ 64 * (1 - spi) * trendFactor d := by
        have hspi : 0 ≤ 64 * (1 - spi) := by linarith
        exact mul_le_mul_of_nonneg_left (trendFactor_anti hd) hspi

/-! ## The stride -/

theorem computeEpochStride_eq (spi : ℚ) :
    computeEpochStride spi = F64.toU64 (F64.round (16 * (1 + 4 * spi) : ℚ)) := rfl

theorem computeEpochStride_mem {spi : ℚ} (h0 : 0 ≤ spi) (h1 : spi < 1) :
    16 ≤ computeEpochStride spi ∧ computeEpochStride spi ≤ 80 := by
  have hnonneg : (0 : ℚ) ≤ 16 * (1 + 4 * spi) := by linarith
  have hlo : ((16 : Nat) : ℚ) ≤ 16 * (1 + 4 * spi) := by
    push_cast
    linarith
  have hhi : (16 * (1 + 4 * spi) : ℚ) ≤ ((80 : Nat) : ℚ) := by
    push_cast
    linarith
  rw [computeEpochStride_eq]
  exact ⟨F64.le_toU64 (by decide) (F64.le_round hlo), F64.toU64_le (F64.round_le hnonneg hhi)⟩

theorem computeEpochStride_mono {spi spi' : ℚ} (h0 : 0 ≤ spi) (h : spi ≤ spi') :
    computeEpochStride spi ≤ computeEpochStride spi' := by
  rw [computeEpochStride_eq, computeEpochStride_eq]
  apply F64.toU64_mono
  apply F64.round_mono <;> linarith

/-- A positive stride takes the remainder of any `op_counter`, so `reclaim_discrete` and, with
its scan, `reclaim_continuous` go through. -/
theorem reclaim_isSome {F P : Type} [F64 F] (sys : PacerSystem F) (t : ThreadLocalState F P)
    (h : computeEpochStride t.spiEma ≠ 0) :
    (sys.reclaimDiscrete t).isSome
      ∧ (sys.safeReclaimTs.isSome → (sys.reclaimContinuous t).isSome) := by
  constructor
  · rw [reclaimDiscrete_eq sys t h]
    rfl
  · intro hscan
    obtain ⟨safeTs, hsafe⟩ := Option.isSome_iff_exists.mp hscan
    simp [reclaimContinuous, hsafe, strides, h]

end PacerSystem

open PacerSystem in
/-- **The derived parameters stay in range and move the right way.** In every state that the
threads reach, each average is in `[0, 1)` and the published difference strictly within
`SPI_EMA_ALPHA` of zero. The batch size and the stride of every thread are then within their
bounds, so no call of `reclaim_discrete` or `reclaim_continuous` by a thread with this average
divides by zero, whatever else its state holds. Over that range the batch size falls with the
SPI and with the trend, and the stride grows with the SPI. -/
theorem parameters_in_range {T P : Type} [DecidableEq T] {tid : T → Nat} {s : SpiState ℚ T P}
    {tr : List (Machine.Trans (SpiState ℚ T P) (SpiAction T))}
    (h : Machine.Run SpiState.step (SpiState.new tid) tr s) :
    (∀ t, 0 ≤ (s.tls t).spiEma ∧ (s.tls t).spiEma < 1)
      ∧ (-spiEmaAlpha < s.sys.deltaSpi ∧ s.sys.deltaSpi < spiEmaAlpha)
      ∧ (∀ t, minBatch ≤ computeBatchK (s.tls t).spiEma s.sys.deltaSpi
          ∧ computeBatchK (s.tls t).spiEma s.sys.deltaSpi ≤ maxBatch)
      ∧ (∀ t, 16 ≤ computeEpochStride (s.tls t).spiEma
          ∧ computeEpochStride (s.tls t).spiEma ≤ 80)
      ∧ (∀ t (sys : PacerSystem ℚ) (tl : ThreadLocalState ℚ P),
          tl.spiEma = (s.tls t).spiEma →
            (sys.reclaimDiscrete tl).isSome
              ∧ (sys.safeReclaimTs.isSome → (sys.reclaimContinuous tl).isSome))
      ∧ (∀ spi spi' d d' : ℚ, 0 ≤ spi → spi ≤ spi' → spi' < 1 →
          -spiEmaAlpha < d → d ≤ d' → d' < spiEmaAlpha →
            computeBatchK spi' d' ≤ computeBatchK spi d
              ∧ computeEpochStride spi ≤ computeEpochStride spi') := by
  have hI := SpiState.SpiInv.of_run h
  have hdelta := abs_lt.mp hI.deltaSpi
  have halpha : (spiEmaAlpha : ℚ) < 2 := by norm_num [spiEmaAlpha]
  refine ⟨hI.spiEma, hdelta, fun t => ?_, fun t => ?_, fun t sys tl htl => ?_, ?_⟩
  · exact computeBatchK_mem (hI.spiEma t).1 (hI.spiEma t).2
  · exact computeEpochStride_mem (hI.spiEma t).1 (hI.spiEma t).2
  · apply reclaim_isSome
    rw [htl]
    exact (computeEpochStride_pos (hI.spiEma t).1).ne'
  · intro spi spi' d d' h0 hle h1 _ hd hd'
    exact ⟨computeBatchK_anti hle h1 hd (hd'.trans halpha), computeEpochStride_mono h0 hle⟩

/-- After one snapshot in its window thread `t` publishes a difference above the trend
threshold. -/
def oneSnapshot {T : Type} (t : T) : List (SpiAction T) :=
  [.countSnap t, .resample t, .storeDelta t]

open PacerSystem in
/-- The published trend shrinks the batch of the other thread, whose own SPI is still zero. -/
theorem parameters_in_range_one_snapshot :
    ∃ (tr : List (Machine.Trans (SpiState ℚ (Fin 2) Nat) (SpiAction (Fin 2))))
      (s : SpiState ℚ (Fin 2) Nat),
      Machine.Run SpiState.step (SpiState.new fun _ => 0) tr s
        ∧ s.sys.deltaSpi = 3 / 40
        ∧ computeBatchK (s.tls 1).spiEma s.sys.deltaSpi = 61
        ∧ computeEpochStride (s.tls 0).spiEma = 21
        ∧ ∀ t, computeBatchK (s.tls t).spiEma s.sys.deltaSpi ≤ maxBatch := by
  obtain ⟨tr, s, hrun, hp⟩ := Machine.exists_run_of_replay SpiState.step
    (SpiState.new fun _ => 0 : SpiState ℚ (Fin 2) Nat) (oneSnapshot 0)
    (fun _ s => decide (s.sys.deltaSpi = 3 / 40)
      && decide (computeBatchK (s.tls 1).spiEma s.sys.deltaSpi = 61)
      && decide (computeEpochStride (s.tls 0).spiEma = 21)) (by decide +kernel)
  simp only [Bool.and_eq_true, decide_eq_true_eq] at hp
  exact ⟨tr, s, hrun, hp.1.1, hp.1.2, hp.2, fun t => ((parameters_in_range hrun).2.2.1 t).2⟩

end Pacer
