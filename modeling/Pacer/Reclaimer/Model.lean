import Pacer.Core.ThreadState
import Pacer.Lib.Run
import Mathlib.Data.Multiset.AddSub
import Mathlib.Data.Fintype.Basic

set_option autoImplicit false

/-! # The C++ reclaimer

`reclaimer_pacer`: `N` initialised threads pass a token round a ring; a thread that receives it
in `startOp` rotates its epoch bags, and every `startOp` hands a few nodes of
`deamortizedFreeables` to the pool. The machine interleaves the stores to the tokens, the
rotations (one record type at a time), the retires and the single `pool->add` calls. A
`startOp` begins with the read of the own token: what it does before that concerns its own
counters only.

A blockbag is a multiset. `appendMoveFullBlocks` moves a part of its source that depends on
how the nodes lie in blocks: the label of a rotation says which, and the label of a
`pool->add` says which node `remove` took.

The node in a bag carries what the proofs ask about its retirement: how many operations each
thread had begun, and which were in progress.
-/

namespace Pacer.Reclaimer

open Machine

/-! ## Constants and controller -/

def pacerHoldLimit : Nat := 8

section

variable {F : Type} [F64 F]

def pacerSpiWriteHeavy : F := F64.lit (3 / 10)
def pacerSpiSnapHeavy : F := F64.lit (6 / 10)
def pacerEmaAlpha : F := F64.lit (15 / 100)
def pacerHysteresis : F := F64.lit (5 / 100)

def pacerSelectMode (spi : F) : GcMode :=
  if F64.le spi pacerSpiWriteHeavy then .aggressiveEbr
  else if F64.le spi pacerSpiSnapHeavy then .amortisedFree
  else .conservativeHold

def pacerSelectModeHyst (spi : F) (prev : GcMode) : GcMode :=
  match prev with
  | .aggressiveEbr =>
      if F64.lt (pacerSpiSnapHeavy + pacerHysteresis) spi then .conservativeHold
      else if F64.lt (pacerSpiWriteHeavy + pacerHysteresis) spi then .amortisedFree
      else .aggressiveEbr
  | .amortisedFree =>
      if F64.le spi (pacerSpiWriteHeavy - pacerHysteresis) then .aggressiveEbr
      else if F64.lt (pacerSpiSnapHeavy + pacerHysteresis) spi then .conservativeHold
      else .amortisedFree
  | .conservativeHold =>
      if F64.le spi (pacerSpiWriteHeavy - pacerHysteresis) then .aggressiveEbr
      else if F64.le spi (pacerSpiSnapHeavy - pacerHysteresis) then .amortisedFree
      else .conservativeHold

end

/-- The fields of `ThreadData` except the bags. -/
structure ThreadData (F : Type) where
  token : Nat
  tokenCount : Nat
  winWrites : Nat
  winSnaps : Nat
  spiEma : F
  holdTicks : Nat
  gcMode : GcMode

namespace ThreadData

variable {F : Type} [F64 F]

/-- The constructor of the reclaimer. -/
def new (tid : Nat) : ThreadData F :=
  { token := if tid = 0 then 1 else 0, tokenCount := 0, winWrites := 0, winSnaps := 0,
    spiEma := F64.lit 0, holdTicks := 0, gcMode := .aggressiveEbr }

def countOp (td : ThreadData F) (readOnly : Bool) : ThreadData F :=
  if readOnly then { td with winSnaps := td.winSnaps + 1 }
  else { td with winWrites := td.winWrites + 1 }

/-- "Resample SPI" -/
def resample (td : ThreadData F) : ThreadData F :=
  let total := td.winWrites + td.winSnaps
  if total > 0 then
    let winSpi : F := F64.ofU64 td.winSnaps / F64.ofU64 (total + 1)
    { td with
      spiEma := td.spiEma * (F64.lit 1 - pacerEmaAlpha) + winSpi * pacerEmaAlpha
      winWrites := 0
      winSnaps := 0 }
  else td

/-- The mode selection of `startOp`, with the number of nodes it then may hand over. -/
def select (td : ThreadData F) : ThreadData F × Nat :=
  let mode := pacerSelectModeHyst td.spiEma td.gcMode
  let td := { td with gcMode := mode }
  match mode with
  | .conservativeHold =>
      if td.holdTicks + 1 ≥ pacerHoldLimit then ({ td with holdTicks := 0 }, pacerHoldLimit)
      else ({ td with holdTicks := td.holdTicks + 1 }, 0)
  | .aggressiveEbr | .amortisedFree => ({ td with holdTicks := 0 }, 1)

omit [F64 F] in
@[simp] theorem countOp_token (td : ThreadData F) (readOnly : Bool) :
    (td.countOp readOnly).token = td.token := by
  unfold countOp
  split <;> rfl

omit [F64 F] in
@[simp] theorem countOp_tokenCount (td : ThreadData F) (readOnly : Bool) :
    (td.countOp readOnly).tokenCount = td.tokenCount := by
  unfold countOp
  split <;> rfl

@[simp] theorem resample_token (td : ThreadData F) : td.resample.token = td.token := by
  unfold resample
  dsimp only
  split <;> rfl

@[simp] theorem resample_tokenCount (td : ThreadData F) :
    td.resample.tokenCount = td.tokenCount := by
  unfold resample
  dsimp only
  split <;> rfl

@[simp] theorem select_token (td : ThreadData F) : td.select.1.token = td.token := by
  unfold select
  dsimp only
  cases pacerSelectModeHyst td.spiEma td.gcMode with
  | conservativeHold => dsimp only; split <;> rfl
  | aggressiveEbr | amortisedFree => rfl

@[simp] theorem select_tokenCount (td : ThreadData F) :
    td.select.1.tokenCount = td.tokenCount := by
  unfold select
  dsimp only
  cases pacerSelectModeHyst td.spiEma td.gcMode with
  | conservativeHold => dsimp only; split <;> rfl
  | aggressiveEbr | amortisedFree => rfl

end ThreadData

/-! ## Bags -/

/-- The three bags that a thread keeps for a record type. -/
structure Bags (E : Type) where
  curr : Multiset E
  last : Multiset E
  deamortizedFreeables : Multiset E

namespace Bags

variable {E : Type} [DecidableEq E]

def empty : Bags E := ⟨0, 0, 0⟩

/-- `rotateEpochBags`, where `appendMoveFullBlocks` moves `moved`. -/
def rotateEpochBags (b : Bags E) (moved : Multiset E) : Bags E :=
  let freeable := b.last
  { deamortizedFreeables := b.deamortizedFreeables + moved
    last := b.curr
    curr := freeable - moved }

def retire (b : Bags E) (e : E) : Bags E := { b with curr := e ::ₘ b.curr }

/-- `deamortizedFreeables->remove()`, taking `e`. -/
def remove (b : Bags E) (e : E) : Bags E :=
  { b with deamortizedFreeables := b.deamortizedFreeables.erase e }

end Bags

/-! ## The machine -/

/-- The next action of a thread. -/
inductive Pc where
  | idle
  /-- `td.token = 0` -/
  | clearToken
  /-- `threadData[(tid + 1) % NUM_PROCESSES].token = 1` -/
  | setNext
  /-- `rotateEpochBags` of record type `j` -/
  | rotate (j : Nat)
  | select
  /-- the hand-over to the pool, with `k` nodes to go -/
  | drain (k : Nat)
  /-- between `startOp` and `endOp` -/
  | body
  deriving DecidableEq

/-- A retired node, with the operations begun and in progress when it was retired. -/
@[ext]
structure Node (P : Type) (N : Nat) where
  ptr : P
  begunAt : Fin N → Nat
  runningAt : Fin N → Option Nat
  running_le : ∀ u n, runningAt u = some n → n ≤ begunAt u

-- the derived instance would transport along equations of functions and not evaluate
instance {P : Type} [DecidableEq P] {N : Nat} : DecidableEq (Node P N) := fun e e' =>
  decidable_of_iff (e.ptr = e'.ptr ∧ e.begunAt = e'.begunAt ∧ e.runningAt = e'.runningAt)
    ⟨fun h => Node.ext h.1 h.2.1 h.2.2, fun h => h ▸ ⟨rfl, rfl, rfl⟩⟩

structure State (F P : Type) (N : Nat) where
  threadData : Fin N → ThreadData F
  bags : Fin N → Nat → Bags (Node P N)
  pc : Fin N → Pc
  /-- The number of operations the thread has begun. -/
  begun : Fin N → Nat
  /-- What was handed to the pool of the first record type. -/
  pool : Multiset (Node P N)

inductive Action (P : Type) (N : Nat) where
  | startOp (i : Fin N) (readOnly : Bool)
  /-- The next store, the mode selection, or the end of the hand-over. -/
  | run (i : Fin N)
  | rotate (i : Fin N) (moved : Multiset (Node P N))
  | poolAdd (i : Fin N) (e : Node P N)
  | retire (i : Fin N) (j : Nat) (ptr : P)
  | endOp (i : Fin N)
  deriving DecidableEq

section

variable {F P : Type} [F64 F] [DecidableEq P] {N : Nat}

/-- The number of the operation of `i` in progress. -/
def State.running (s : State F P N) (i : Fin N) : Option Nat :=
  if s.pc i = .idle then none else some (s.begun i)

omit [F64 F] [DecidableEq P] in
theorem State.running_le (s : State F P N) (u : Fin N) (n : Nat) (h : s.running u = some n) :
    n ≤ s.begun u := by
  unfold State.running at h
  split at h
  · cases h
  · cases h; exact le_rfl

/-- The node at `ptr`, retired now. -/
def State.node (s : State F P N) (ptr : P) : Node P N :=
  ⟨ptr, s.begun, s.running, s.running_le⟩

def init (F P : Type) [F64 F] (N : Nat) : State F P N :=
  { threadData := fun i => ThreadData.new i, bags := fun _ _ => Bags.empty,
    pc := fun _ => .idle, begun := fun _ => 0, pool := 0 }

/-- `(tid + 1) % NUM_PROCESSES` -/
def next (i : Fin N) : Fin N := ⟨(i.val + 1) % N, Nat.mod_lt _ i.pos⟩

/-- `rotateAllEpochBags`: the record types from `j` on, of `m`. -/
def rotateFrom (m j : Nat) : Pc := if j < m then .rotate j else .select

/-- The two stores of the token, the mode selection and the end of the hand-over. -/
def runStep (m : Nat) (s : State F P N) (i : Fin N) : Pc → Option (State F P N)
  | .clearToken =>
      some { s with
        threadData := Function.update s.threadData i { s.threadData i with token := 0 }
        pc := Function.update s.pc i .setNext }
  | .setNext =>
      let data := Function.update s.threadData (next i)
        { s.threadData (next i) with token := 1 }
      let td := data i
      some { s with
        threadData := Function.update data i
          { td with tokenCount := td.tokenCount + 1 }.resample
        pc := Function.update s.pc i (rotateFrom m 0) }
  | .select =>
      let r := (s.threadData i).select
      some { s with
        threadData := Function.update s.threadData i r.1
        pc := Function.update s.pc i (.drain r.2) }
  | .drain k =>
      if k = 0 ∨ (s.bags i 0).deamortizedFreeables = 0 then
        some { s with pc := Function.update s.pc i .body }
      else none
  | .idle | .rotate _ | .body => none

/-- The bags after a change to those of thread `i` and record type `j`. -/
def State.setBags (s : State F P N) (i : Fin N) (j : Nat) (b : Bags (Node P N)) :
    Fin N → Nat → Bags (Node P N) :=
  Function.update s.bags i (Function.update (s.bags i) j b)

def step (m : Nat) (s : State F P N) : Action P N → Option (State F P N)
  | .startOp i readOnly =>
      if s.pc i = .idle then
        some { s with
          threadData := Function.update s.threadData i ((s.threadData i).countOp readOnly)
          pc := Function.update s.pc i
            (if (s.threadData i).token ≠ 0 then .clearToken else .select)
          begun := Function.update s.begun i (s.begun i + 1) }
      else none
  | .run i => runStep m s i (s.pc i)
  | .rotate i moved =>
      match s.pc i with
      | .rotate j =>
          if moved ≤ (s.bags i j).last then
            some { s with
              bags := s.setBags i j ((s.bags i j).rotateEpochBags moved)
              pc := Function.update s.pc i (rotateFrom m (j + 1)) }
          else none
      | _ => none
  | .poolAdd i e =>
      match s.pc i with
      | .drain (k + 1) =>
          if e ∈ (s.bags i 0).deamortizedFreeables then
            some { s with
              bags := s.setBags i 0 ((s.bags i 0).remove e)
              pc := Function.update s.pc i (.drain k)
              pool := e ::ₘ s.pool }
          else none
      | _ => none
  | .retire i j ptr =>
      if s.pc i = .body ∧ j < m then
        some { s with
          bags := s.setBags i j ((s.bags i j).retire (s.node ptr)) }
      else none
  | .endOp i =>
      if s.pc i = .body then some { s with pc := Function.update s.pc i .idle } else none

end

end Pacer.Reclaimer
