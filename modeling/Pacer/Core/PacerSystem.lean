import Pacer.Core.ThreadState
import Pacer.Core.AnnouncementTable
import Pacer.Core.Scc

set_option autoImplicit false

/-! # The system: reclamation, snapshots and the write path

The operations of `PacerSystem` as functions on the shared state and the calling thread's
state, each run without interference. A panic (a slot index out of range, a remainder by
zero) is `none`. Functions that free nodes return the freed entries; the source returns their
number.
-/

namespace Pacer

def maxBatch : Nat := 64
def minBatch : Nat := 1
def baseStride : Nat := 16

structure VersionNode (V : Type) where
  value : V
  birthTs : Nat
  next : Nat

def VersionNode.new {V : Type} (value : V) (birthTs : Nat) : VersionNode V :=
  { value := value, birthTs := birthTs, next := 0 }

/-- `approxSpi` and `deltaSpi` hold the bits of an `f64`. -/
structure PacerSystem (F : Type) where
  globalEpoch : Nat
  approxSpi : F
  deltaSpi : F
  scc : Scc
  announce : AnnouncementTable

/-- `compare_exchange(expected, new)` on a cell: the cell and whether the exchange was made. -/
def compareExchange (cell expected new : Nat) : Nat × Bool :=
  if cell = expected then (new, true) else (cell, false)

/-- `saturating_add(1)` on a `u32`. -/
def saturatingSucc32 (n : Nat) : Nat := Nat.min (n + 1) (2 ^ 32 - 1)

namespace PacerSystem

variable {F : Type} [F64 F] {P V : Type}

def new : PacerSystem F :=
  { globalEpoch := 1, approxSpi := F64.lit 0, deltaSpi := F64.lit 0, scc := Scc.new,
    announce := AnnouncementTable.new }

/-! ## SPI sampling and derived parameters -/

/-- The average after a window of `w` writes and `s` snapshots. -/
def nextEma (prevEma : F) (w s : Nat) : F :=
  prevEma * (F64.lit 1 - spiEmaAlpha) + F64.ofU64 s / F64.ofU64 (w + s + 1) * spiEmaAlpha

def resampleSpi (sys : PacerSystem F) (t : ThreadLocalState F P) :
    PacerSystem F × ThreadLocalState F P :=
  if t.winWrites + t.winSnaps = 0 then (sys, t)
  else
    let prevEma := t.spiEma
    let spiEma := nextEma prevEma t.winWrites t.winSnaps
    ({ sys with approxSpi := spiEma, deltaSpi := spiEma - prevEma },
      { t with spiEma := spiEma, winWrites := 0, winSnaps := 0 })

def computeBatchK (spi deltaSpi : F) : Nat :=
  let bk : F := F64.ofU64 maxBatch * (F64.lit 1 - spi)
  let bk := if F64.lt (F64.lit (5 / 100)) deltaSpi
    then bk * (F64.lit 1 - deltaSpi * F64.lit (5 / 10)) else bk
  max (F64.toU64 bk) minBatch

def computeEpochStride (spi : F) : Nat :=
  F64.toU64 (F64.round (F64.ofU64 baseStride * (F64.lit 1 + F64.lit 4 * spi)))

/-! ## Epoch -/

def tryAdvanceEpoch (sys : PacerSystem F) : PacerSystem F × Bool :=
  let cur := sys.globalEpoch
  let r := compareExchange sys.globalEpoch cur (cur + 1)
  ({ sys with globalEpoch := r.1 }, r.2)

/-- `fail_streak` after an attempt to advance the epoch. -/
def streakAfter (failStreak : Nat) (advanced : Bool) : Nat :=
  if advanced then 0 else saturatingSucc32 failStreak

def stepEpoch (sys : PacerSystem F) (t : ThreadLocalState F P) :
    PacerSystem F × ThreadLocalState F P :=
  let r := sys.tryAdvanceEpoch
  (r.1, { t with failStreak := streakAfter t.failStreak r.2 })

/-! ## Announcements -/

def safeReclaimTs (sys : PacerSystem F) : Option Nat := sys.announce.minActiveTs

def registerThread (sys : PacerSystem F) : PacerSystem F × Option Nat :=
  let r := sys.announce.register
  ({ sys with announce := r.1 }, r.2)

def announceSnapshot (sys : PacerSystem F) (tid ts : Nat) : Option (PacerSystem F) :=
  (sys.announce.announce tid ts).map fun tbl => { sys with announce := tbl }

def releaseSnapshot (sys : PacerSystem F) (tid : Nat) : Option (PacerSystem F) :=
  (sys.announce.release tid).map fun tbl => { sys with announce := tbl }

/-! ## Reclamation -/

def drainDiscreteTick (sys : PacerSystem F) (t : ThreadLocalState F P) :
    Option (ThreadLocalState F P × List (Nat × Retired P)) :=
  match sys.safeReclaimTs with
  | none => none
  | some safeTs =>
      match t.gcMode with
      | .aggressiveEbr =>
          let r := t.limboBag.drain safeTs aggressiveDrainPerOp
          some ({ t with holdTicks := 0, limboBag := r.1 }, r.2)
      | .amortisedFree =>
          let r := t.limboBag.drain safeTs afBatchK
          some ({ t with holdTicks := 0, limboBag := r.1 }, r.2)
      | .conservativeHold =>
          if t.holdTicks + 1 ≥ holdLimit then
            let r := t.limboBag.drain safeTs holdLimit
            some ({ t with holdTicks := 0, limboBag := r.1 }, r.2)
          else some ({ t with holdTicks := t.holdTicks + 1 }, [])

/-- The decision of `reclaim_discrete` whether to advance the epoch; `none` when the stride is
`0` and the remainder panics. -/
def strides (opCounter stride : Nat) : Option Bool :=
  if stride = 0 then none else some (decide (opCounter % stride = 0))

def reclaimDiscrete (sys : PacerSystem F) (t : ThreadLocalState F P) :
    Option (PacerSystem F × ThreadLocalState F P) :=
  let spi := t.spiEma
  let mode := selectGcModeWithHysteresis spi t.gcMode
  let t := { t with gcMode := mode }
  let stride := computeEpochStride spi
  match mode with
  | .aggressiveEbr | .amortisedFree =>
      (strides t.opCounter stride).map fun b => if b then sys.stepEpoch t else (sys, t)
  | .conservativeHold => some (sys, t)

def reclaimContinuous (sys : PacerSystem F) (t : ThreadLocalState F P) :
    Option (PacerSystem F × ThreadLocalState F P × List (Nat × Retired P)) :=
  let spi := t.spiEma
  let bk := computeBatchK spi sys.deltaSpi
  let stride := computeEpochStride spi
  match sys.safeReclaimTs with
  | none => none
  | some safeTs =>
      let r := t.limboBag.drain safeTs bk
      let t := { t with limboBag := r.1 }
      (strides t.opCounter stride).map fun b =>
        if b then ((sys.stepEpoch t).1, (sys.stepEpoch t).2, r.2) else (sys, t, r.2)

/-! ## Snapshots and the write path -/

/-- `elapsed` is the measured duration of the coordinator call. -/
def takeSnapshot (sys : PacerSystem F) (t : ThreadLocalState F P) (nowNs elapsed : Nat) :
    Option (PacerSystem F × ThreadLocalState F P × Nat) :=
  let t := { t with winSnaps := t.winSnaps + 1 }
  match sys.scc.takeSnapshot F nowNs sys.globalEpoch with
  | none => none
  | some (scc, ts) =>
      let sys := { sys with scc := scc.recordLatencyNs F elapsed }
      (sys.announceSnapshot t.tid ts).map fun sys => (sys, t, ts)

def releaseSnapshotFor (sys : PacerSystem F) (t : ThreadLocalState F P) :
    Option (PacerSystem F) :=
  sys.releaseSnapshot t.tid

def writeOpPrepare (sys : PacerSystem F) (t : ThreadLocalState F P) (value : V) :
    PacerSystem F × ThreadLocalState F P × VersionNode V × Nat :=
  let t := { t with winWrites := t.winWrites + 1, opCounter := t.opCounter + 1 }
  let ts := sys.globalEpoch
  ({ sys with globalEpoch := sys.globalEpoch + 1 }, t, VersionNode.new value ts, ts)

def postWrite (sys : PacerSystem F) (t : ThreadLocalState F P) (oldPtr : P) (oldTs : Nat) :
    Option (PacerSystem F × ThreadLocalState F P × List (Nat × Retired P)) :=
  let t := { t with limboBag := t.limboBag.push oldTs oldPtr }
  match sys.drainDiscreteTick t with
  | none => none
  | some (t, freed) =>
      if t.opCounter % windowSize = 0 then
        let r := sys.resampleSpi t
        (r.1.reclaimDiscrete r.2).map fun r => (r.1, r.2, freed)
      else some (sys, t, freed)

/-! ## What each function leaves unchanged -/

omit [F64 F] in
/-- The three arms as one drain with the arm's budget. -/
theorem drainDiscreteTick_eq (sys : PacerSystem F) (t : ThreadLocalState F P) :
    sys.drainDiscreteTick t = sys.safeReclaimTs.map fun safeTs =>
      let r := t.limboBag.drain safeTs (tickBudget t.gcMode t.holdTicks)
      ({ t with holdTicks := tickHold t.gcMode t.holdTicks, limboBag := r.1 }, r.2) := by
  unfold drainDiscreteTick
  cases sys.safeReclaimTs with
  | none => rfl
  | some safeTs =>
      cases hm : t.gcMode with
      | aggressiveEbr => simp [tickHold, tickBudget]
      | amortisedFree => simp [tickHold, tickBudget]
      | conservativeHold =>
          by_cases h : t.holdTicks + 1 ≥ holdLimit
          · simp [tickHold, tickBudget, h]
          · simp [tickHold, tickBudget, h, LimboBag.drain, LimboBag.drainLoop]

omit [F64 F] in
@[simp] theorem tryAdvanceEpoch_eq (sys : PacerSystem F) :
    sys.tryAdvanceEpoch = ({ sys with globalEpoch := sys.globalEpoch + 1 }, true) := by
  simp [tryAdvanceEpoch, compareExchange]

/-- `resample_spi` writes only the two shared estimates and the thread's window. -/
theorem resampleSpi_frame (sys : PacerSystem F) (t : ThreadLocalState F P) :
    (sys.resampleSpi t).1.globalEpoch = sys.globalEpoch
      ∧ (sys.resampleSpi t).1.scc = sys.scc
      ∧ (sys.resampleSpi t).1.announce = sys.announce
      ∧ (sys.resampleSpi t).2.limboBag = t.limboBag
      ∧ (sys.resampleSpi t).2.opCounter = t.opCounter
      ∧ (sys.resampleSpi t).2.holdTicks = t.holdTicks
      ∧ (sys.resampleSpi t).2.gcMode = t.gcMode
      ∧ (sys.resampleSpi t).2.tid = t.tid := by
  unfold resampleSpi
  split <;> simp

/-- `reclaim_discrete` selects a mode and may advance the epoch by one. -/
theorem reclaimDiscrete_frame {sys sys' : PacerSystem F} {t t' : ThreadLocalState F P}
    (h : sys.reclaimDiscrete t = some (sys', t')) :
    (sys'.globalEpoch = sys.globalEpoch ∨ sys'.globalEpoch = sys.globalEpoch + 1)
      ∧ sys'.scc = sys.scc ∧ sys'.announce = sys.announce
      ∧ t'.limboBag = t.limboBag ∧ t'.opCounter = t.opCounter
      ∧ t'.holdTicks = t.holdTicks ∧ t'.tid = t.tid
      ∧ t'.gcMode = selectGcModeWithHysteresis t.spiEma t.gcMode := by
  unfold reclaimDiscrete at h
  cases hm : selectGcModeWithHysteresis t.spiEma t.gcMode with
  | conservativeHold =>
      simp only [hm, Option.some.injEq, Prod.mk.injEq] at h
      obtain ⟨rfl, rfl⟩ := h
      simp
  | aggressiveEbr =>
      simp only [hm, Option.map_eq_some_iff] at h
      obtain ⟨b, -, hb⟩ := h
      cases b <;> simp only [stepEpoch, tryAdvanceEpoch_eq, Bool.false_eq_true, if_false, if_true,
        Prod.mk.injEq] at hb <;> obtain ⟨rfl, rfl⟩ := hb <;> simp
  | amortisedFree =>
      simp only [hm, Option.map_eq_some_iff] at h
      obtain ⟨b, -, hb⟩ := h
      cases b <;> simp only [stepEpoch, tryAdvanceEpoch_eq, Bool.false_eq_true, if_false, if_true,
        Prod.mk.injEq] at hb <;> obtain ⟨rfl, rfl⟩ := hb <;> simp

/-- **What `post_write` does**: the retired node is queued, the arm of the current mode drains
the queue against the scanned `safe_ts`, and at a window boundary the mode is selected anew. -/
theorem postWrite_spec {sys sys' : PacerSystem F} {t t' : ThreadLocalState F P} {oldPtr : P}
    {oldTs : Nat} {freed : List (Nat × Retired P)}
    (h : sys.postWrite t oldPtr oldTs = some (sys', t', freed)) :
    ∃ safeTs, sys.safeReclaimTs = some safeTs
      ∧ freed = ((t.limboBag.push oldTs oldPtr).drain safeTs
          (tickBudget t.gcMode t.holdTicks)).2
      ∧ t'.limboBag = ((t.limboBag.push oldTs oldPtr).drain safeTs
          (tickBudget t.gcMode t.holdTicks)).1
      ∧ t'.holdTicks = tickHold t.gcMode t.holdTicks
      ∧ t'.opCounter = t.opCounter ∧ t'.tid = t.tid
      ∧ (t.opCounter % windowSize ≠ 0 → t'.gcMode = t.gcMode)
      ∧ (sys'.globalEpoch = sys.globalEpoch ∨ sys'.globalEpoch = sys.globalEpoch + 1)
      ∧ sys'.scc = sys.scc ∧ sys'.announce = sys.announce := by
  unfold postWrite at h
  simp only [drainDiscreteTick_eq] at h
  cases hs : sys.safeReclaimTs with
  | none => simp [hs] at h
  | some safeTs =>
      simp only [hs, Option.map_some] at h
      refine ⟨safeTs, rfl, ?_⟩
      split at h
      · -- a window ends: `resample_spi`, then `reclaim_discrete`
        obtain ⟨⟨sys₁, t₁⟩, hr, heq⟩ := Option.map_eq_some_iff.mp h
        simp only [Prod.mk.injEq] at heq
        obtain ⟨rfl, rfl, rfl⟩ := heq
        obtain ⟨hep, hscc, hann, hbag, hop, hhold, htid, -⟩ := reclaimDiscrete_frame hr
        obtain ⟨h₁, h₂, h₃, h₄, h₅, h₆, -, h₈⟩ := resampleSpi_frame sys
          { t with
            limboBag := ((t.limboBag.push oldTs oldPtr).drain safeTs
              (tickBudget t.gcMode t.holdTicks)).1
            holdTicks := tickHold t.gcMode t.holdTicks }
        refine ⟨rfl, hbag.trans h₄, hhold.trans h₆, hop.trans h₅, htid.trans h₈, ?_, ?_,
          hscc.trans h₂, hann.trans h₃⟩
        · intro hne
          contradiction
        · rw [← h₁]; exact hep
      · simp only [Option.some.injEq, Prod.mk.injEq] at h
        obtain ⟨rfl, rfl, rfl⟩ := h
        simp

end PacerSystem

end Pacer
