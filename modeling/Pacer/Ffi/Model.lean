import Pacer.Atomic.SystemSteps

set_option autoImplicit false

/-! # The ABtree behind the FFI and the benchmark loop

`run_once`: one thread fills the tree, then any number of threads run the loop of one strategy.
An operation takes a timestamp, runs a C tree call and then drains the thread's limbo bag. The
tree itself is not modelled: a running `insert` or `remove` retires what it likes, as long as
each node carries the value of an earlier `abtree_set_epoch`.

A step is one atomic instruction of the Rust code, the begin or the end of a tree call, or one
retirement. What follows a tree call under PACER (`drain_discrete_tick`, `resample_spi`,
`reclaim_discrete`) is the tail of `post_write` and runs through `Atomic.threadStep`.

The clock ticks at the begin of every tree call and at every retirement. A retired pointer
carries the time of its retirement.
-/

namespace Pacer.Ffi

open Machine Atomic

inductive Strat where
  | batchEbr
  | tokenAf
  | pacerDiscrete
  deriving DecidableEq

def keyRange : Nat := 20000000

/-- `usize::MAX` -/
def usizeMax : Nat := 2 ^ 64 - 1

/-- The deallocation routine of the C++ side. -/
def abtreeFreeNode : FreeFn := ⟨0⟩

/-! ## Retirement and the timestamps of an operation -/

section

variable {F P : Type} [F64 F]

def pacerRetireCb (t : ThreadLocalState F P) (birthTs : Nat) (ptr : P) : ThreadLocalState F P :=
  { t with limboBag := t.limboBag.pushRaw birthTs ptr abtreeFreeNode }

/-- The counters of `AbtreeFFI::insert` and `remove`. -/
def countWrite (t : ThreadLocalState F P) : ThreadLocalState F P :=
  { t with winWrites := t.winWrites + 1, opCounter := t.opCounter + 1 }

/-- The counter of `insert_no_gc` and `remove_no_gc`. -/
def countOp (t : ThreadLocalState F P) : ThreadLocalState F P :=
  { t with opCounter := t.opCounter + 1 }

/-! ## Filling the tree -/

/-- The state of the thread that fills the tree. -/
structure Filling (F P : Type) where
  sys : PacerSystem F
  t : ThreadLocalState F P
  epoch : Nat

/-- `AbtreeFFI::insert` without interference, its tree call retiring `retired`. -/
def insertAlone (s : Filling F P) (retired : List (Nat × P)) : Option (Filling F P) :=
  let t := retired.foldl (fun t r => pacerRetireCb t r.1 r.2) (countWrite s.t)
  match s.sys.drainDiscreteTick t with
  | none => none
  | some (t, _) =>
      if t.opCounter % windowSize = 0 then
        let r := s.sys.resampleSpi t
        (r.1.reclaimDiscrete r.2).map fun r => ⟨r.1, r.2, s.epoch + 1⟩
      else some ⟨s.sys, t, s.epoch + 1⟩

/-- The first block of `run_once`: one insert for each element of `calls`. -/
def prepopulate (calls : List (List (Nat × P))) : Option (Filling F P) :=
  let r : PacerSystem F × Option Nat := PacerSystem.new.registerThread
  match r.2 with
  | none => none
  | some tid => calls.foldlM insertAlone ⟨r.1, ThreadLocalState.new tid, 1⟩

end

/-- What the threads of the run loop find: the result of some pre-population. -/
structure Prepopulated (F P : Type) [F64 F] where
  sys : PacerSystem F
  epoch : Nat
  reached : ∃ (calls : List (List (Nat × P))) (t : ThreadLocalState F P),
    calls.length = keyRange / 2 ∧ prepopulate calls = some ⟨sys, t, epoch⟩

/-! ## The run loop -/

inductive TreeCall where
  | insert
  | remove
  | contains
  deriving DecidableEq

/-- The next action of a thread. -/
inductive Pc (F : Type) where
  | unregistered
  | idle
  | panicked
  /-- the C call is about to begin -/
  | enter (c : TreeCall)
  /-- inside the C call, which began at time `start` -/
  | inTree (c : TreeCall) (start : Nat)
  /-- `drain_discrete_tick`, `resample_spi` and `reclaim_discrete` -/
  | gc (q : SysPc F)
  /-- `ebr_ep.load()` for the drain -/
  | ebrLoad
  /-- the loop of `drain` with `k` rounds to go -/
  | ebrDrain (safeTs k : Nat)
  /-- `let e = ebr_ep.load()` -/
  | ebrRead
  /-- `ebr_ep.compare_exchange(e, e + 1)` -/
  | ebrCas (e : Nat)

/-- A retired pointer with the time of its retirement. -/
structure Node (P : Type) where
  ptr : P
  retiredAt : Nat
  deriving DecidableEq

inductive Action (T P : Type) where
  | register (t : T)
  | call (t : T) (c : TreeCall)
  /-- `pacer_retire_cb` from inside the C call -/
  | retire (t : T) (birthTs : Nat) (ptr : P)
  /-- the C call returns -/
  | ret (t : T)
  /-- Thread `t` performs its next instruction. -/
  | run (t : T)
  deriving DecidableEq

structure State (F T P : Type) where
  sys : PacerSystem F
  epoch : Nat
  ebrEpoch : Nat
  /-- The values that `abtree_set_epoch` was called with so far. -/
  stamped : Nat → Bool
  tls : T → ThreadLocalState F (Node P)
  ebrOps : T → Nat
  pc : T → Pc F
  clock : Nat

section

variable {F T P : Type} [F64 F] [DecidableEq T]

def init (T : Type) (p : Prepopulated F P) : State F T P :=
  { sys := p.sys, epoch := p.epoch, ebrEpoch := 1,
    stamped := fun b => decide (1 ≤ b ∧ b < p.epoch),
    tls := fun _ => ThreadLocalState.new 0, ebrOps := fun _ => 0,
    pc := fun _ => .unregistered, clock := 0 }

/-- `abtree_set_epoch(ts)` -/
def State.setEpoch (s : State F T P) (ts : Nat) : Nat → Bool :=
  fun b => decide (b = ts) || s.stamped b

/-- An operation up to its C call. -/
def beginOp (strat : Strat) (s : State F T P) (t : T) (c : TreeCall) : State F T P :=
  let s := { s with pc := Function.update s.pc t (.enter c) }
  match c with
  | .contains => s
  | .insert | .remove =>
      match strat with
      | .pacerDiscrete =>
          { s with
            epoch := s.epoch + 1
            stamped := s.setEpoch s.epoch
            tls := Function.update s.tls t (countWrite (s.tls t)) }
      | .batchEbr | .tokenAf =>
          { s with
            ebrEpoch := s.ebrEpoch + 1
            stamped := s.setEpoch s.ebrEpoch
            tls := Function.update s.tls t (countOp (s.tls t)) }

/-- The count of an EBR operation, and where it goes from there if the window ends. -/
def countEbr (s : State F T P) (t : T) (q : Pc F) : State F T P :=
  let n := s.ebrOps t + 1
  { s with
    ebrOps := Function.update s.ebrOps t n
    pc := Function.update s.pc t (if n % windowSize = 0 then q else .idle) }

/-- An operation after its C call. -/
def afterCall (strat : Strat) (s : State F T P) (t : T) : TreeCall → State F T P
  | .contains => { s with pc := Function.update s.pc t .idle }
  | .insert | .remove =>
      match strat with
      | .pacerDiscrete => { s with pc := Function.update s.pc t (.gc .scanCount) }
      | .batchEbr => countEbr s t .ebrLoad
      | .tokenAf => { s with pc := Function.update s.pc t .ebrLoad }

/-- The drain and what follows it in `AbtreeFFI`. -/
def afterGc : SysPc F → Pc F
  | .idle => .idle
  | .panicked => .panicked
  | q => .gc q

/-- The bound of the drain in the run loop. -/
def ebrBudget : Strat → Nat
  | .tokenAf => 1
  | .batchEbr | .pacerDiscrete => usizeMax

/-- An EBR operation after its drain. -/
def afterEbrDrain (strat : Strat) (s : State F T P) (t : T) : State F T P :=
  match strat with
  | .tokenAf => countEbr s t .ebrRead
  | .batchEbr | .pacerDiscrete => { s with pc := Function.update s.pc t .ebrRead }

def runStep (strat : Strat) (s : State F T P) (t : T) : Pc F → Option (State F T P)
  | .unregistered | .idle | .panicked | .inTree _ _ => none
  | .enter c =>
      some { s with pc := Function.update s.pc t (.inTree c s.clock), clock := s.clock + 1 }
  | .gc q =>
      (threadStep s.sys (s.tls t) q).map fun r =>
        { s with
          sys := r.1
          tls := Function.update s.tls t r.2.1
          pc := Function.update s.pc t (afterGc r.2.2) }
  | .ebrLoad =>
      some { s with pc := Function.update s.pc t (.ebrDrain (s.ebrEpoch - 2) (ebrBudget strat)) }
  | .ebrDrain safeTs k =>
      match nextFreed (s.tls t) safeTs k with
      | some _ =>
          some { s with
            tls := Function.update s.tls t
              { s.tls t with limboBag := ⟨(s.tls t).limboBag.q.tail⟩ }
            pc := Function.update s.pc t (.ebrDrain safeTs (k - 1)) }
      | none => some (afterEbrDrain strat s t)
  | .ebrRead => some { s with pc := Function.update s.pc t (.ebrCas s.ebrEpoch) }
  | .ebrCas e =>
      some { s with
        ebrEpoch := (compareExchange s.ebrEpoch e (e + 1)).1
        pc := Function.update s.pc t .idle }

def step (strat : Strat) (s : State F T P) : Action T P → Option (State F T P)
  | .register t =>
      match s.pc t with
      | .unregistered =>
          let r := s.sys.registerThread
          some { s with
            sys := r.1
            tls := Function.update s.tls t
              (ThreadLocalState.new (r.2.getD s.sys.announce.activeCount))
            pc := Function.update s.pc t (if r.2.isSome then .idle else .panicked) }
      | _ => none
  | .call t c =>
      match s.pc t with
      | .idle => some (beginOp strat s t c)
      | _ => none
  | .retire t birthTs ptr =>
      match s.pc t with
      | .inTree c _ =>
          if c ≠ .contains ∧ s.stamped birthTs = true then
            some { s with
              tls := Function.update s.tls t
                (pacerRetireCb (s.tls t) birthTs ⟨ptr, s.clock⟩)
              clock := s.clock + 1 }
          else none
      | _ => none
  | .ret t =>
      match s.pc t with
      | .inTree c _ => some (afterCall strat s t c)
      | _ => none
  | .run t => runStep strat s t (s.pc t)

end

end Pacer.Ffi
