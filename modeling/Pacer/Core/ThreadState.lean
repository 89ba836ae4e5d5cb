import Pacer.Core.LimboBag

set_option autoImplicit false

/-! # GC modes and thread-local state

The three reclamation tiers, the selectors that map the SPI estimate to a tier, and the state
a thread keeps between operations.
-/

namespace Pacer

def windowSize : Nat := 256
def holdLimit : Nat := 8
def afBatchK : Nat := 1
def aggressiveDrainPerOp : Nat := 4

inductive GcMode where
  | aggressiveEbr
  | amortisedFree
  | conservativeHold
  deriving DecidableEq, Repr

section

variable {F : Type} [F64 F]

def spiWriteHeavy : F := F64.lit (3 / 10)
def spiSnapHeavy : F := F64.lit (6 / 10)
def spiEmaAlpha : F := F64.lit (15 / 100)
def hysteresis : F := F64.lit (5 / 100)

/-- Stateless classification. -/
def selectGcMode (spi : F) : GcMode :=
  if F64.le spi spiWriteHeavy then .aggressiveEbr
  else if F64.le spi spiSnapHeavy then .amortisedFree
  else .conservativeHold

/-- The mode changes only once `spi` clears the relevant threshold by more than
`hysteresis`. -/
def selectGcModeWithHysteresis (spi : F) (prev : GcMode) : GcMode :=
  match prev with
  | .aggressiveEbr =>
      if F64.lt (spiSnapHeavy + hysteresis) spi then .conservativeHold
      else if F64.lt (spiWriteHeavy + hysteresis) spi then .amortisedFree
      else .aggressiveEbr
  | .amortisedFree =>
      if F64.le spi (spiWriteHeavy - hysteresis) then .aggressiveEbr
      else if F64.lt (spiSnapHeavy + hysteresis) spi then .conservativeHold
      else .amortisedFree
  | .conservativeHold =>
      if F64.le spi (spiWriteHeavy - hysteresis) then .aggressiveEbr
      else if F64.le spi (spiSnapHeavy - hysteresis) then .amortisedFree
      else .conservativeHold

end

structure ThreadLocalState (F P : Type) where
  winWrites : Nat
  winSnaps : Nat
  opCounter : Nat
  failStreak : Nat
  spiEma : F
  holdTicks : Nat
  gcMode : GcMode
  limboBag : LimboBag P
  tid : Nat

def ThreadLocalState.new {F P : Type} [F64 F] (tid : Nat) : ThreadLocalState F P :=
  { winWrites := 0, winSnaps := 0, opCounter := 0, failStreak := 0, spiEma := F64.lit 0,
    holdTicks := 0, gcMode := .aggressiveEbr, limboBag := LimboBag.new, tid := tid }

/-! ## The arms of `drain_discrete_tick`

Each arm sets `hold_ticks` and passes a bound to `drain`; the arm that does not drain counts
as the bound `0`. -/

/-- `hold_ticks` after the arm of `mode`. -/
def tickHold (mode : GcMode) (holdTicks : Nat) : Nat :=
  match mode with
  | .aggressiveEbr => 0
  | .amortisedFree => 0
  | .conservativeHold => if holdTicks + 1 ≥ holdLimit then 0 else holdTicks + 1

/-- The number of nodes the arm of `mode` may free. -/
def tickBudget (mode : GcMode) (holdTicks : Nat) : Nat :=
  match mode with
  | .aggressiveEbr => aggressiveDrainPerOp
  | .amortisedFree => afBatchK
  | .conservativeHold => if holdTicks + 1 ≥ holdLimit then holdLimit else 0

end Pacer
