import Pacer.Abtree.Guard
import Pacer.Abtree.History
import Pacer.Reclaimer.GracePeriod

set_option autoImplicit false

/-! # The tree on top of the reclaimer

`N` threads run operations on the tree, and `reclaimer_pacer` manages its nodes, the only record
type. The two are joined by the record manager of `record_manager.h`, which is not part of the
repository and so a parameter: a `RecordManager` says which functions of the reclaimer it calls
when the tree gets a guard, when a guard ends, and when the tree retires a node.

A thread gets a guard before it touches a node, for a `find` with `readOnly`, and it goes on when
`getGuard` has made its calls and returned. The guard ends when the thread starts its loop again
and when it returns.

What is done with the memory of the nodes in the pool is up to the environment: `reuse` overwrites
such a node with anything at all. An address stands for one allocation, so a node that is built in
reused memory gets a new address, and what is written to it shows as a change of the old one.
-/

namespace Pacer.Managed

open Machine Abtree

/-- The functions of the reclaimer that a thread calls through the record manager. -/
inductive Call where
  | startOp (readOnly : Bool)
  | endOp
  | retire (x : Nat)
deriving DecidableEq

def Call.action {N : Nat} (t : Fin N) : Call → Reclaimer.Action Nat N
  | .startOp readOnly => .startOp t readOnly
  | .endOp => .endOp t
  | .retire x => .retire t 0 x

/-- The record manager: what its functions call, and what is documented of it. -/
structure RecordManager where
  getGuard : Bool → List Call
  endGuard : List Call
  retire : Nat → List Call
  /-- a guard is an operation of the reclaimer -/
  getGuard_calls : ∀ readOnly, ∃ ro, getGuard readOnly = [.startOp ro]
  endGuard_calls : endGuard = [.endOp]
  /-- a node is handed on to the reclaimer -/
  retire_calls : ∀ x, retire x = [.retire x]

/-- `find` gets its guard with `readOnly`. -/
def readOnly {K : Type} : Op K → Bool
  | .find _ => true
  | .insert _ _ _ | .erase _ => false

/-- The operation that is about to get a guard. -/
def starting {K : Type} : Abtree.Pc K → Option (Op K)
  | .begin op => some op
  | _ => none

structure State (F K : Type) (N : Nat) where
  tree : Abtree.State K
  reclaimer : Reclaimer.State F Nat N
  /-- what `getGuard` has yet to call for the thread -/
  pending : Fin N → List Call

inductive Action (K E : Type) (N : Nat) where
  | call (t : Fin N) (op : Op K)
  /-- the next call that `getGuard` makes for thread `t` -/
  | guard (t : Fin N)
  /-- a step within `startOp` -/
  | reclaim (a : Reclaimer.Action Nat N)
  /-- the next step of thread `t` in the tree -/
  | run (t : Fin N) (e : E)
  | ret (t : Fin N)
  | reuse (x : Nat) (c : Cell K)

section

variable {F K : Type} [F64 F] [LinearOrder K] {N : Nat}

def init (F : Type) [F64 F] (anyKey : K) (N : Nat) : State F K N where
  tree := Abtree.init anyKey N
  reclaimer := Reclaimer.init F Nat N
  pending := fun _ => []

/-- The addresses of the nodes in the pool. -/
def State.pooled (s : State F K N) : Multiset Nat := s.reclaimer.pool.map fun e => e.ptr

/-- `getGuard` has returned: it has made its calls, and none of them is still running. -/
def State.guarded (s : State F K N) (t : Fin N) : Prop :=
  s.pending t = [] ∧ (s.reclaimer.pc t = .idle ∨ s.reclaimer.pc t = .body)

instance (s : State F K N) (t : Fin N) : Decidable (s.guarded t) :=
  inferInstanceAs (Decidable (_ ∧ _))

/-- The steps that `startOp` is made of. -/
def within : Reclaimer.Action Nat N → Bool
  | .run _ | .rotate _ _ | .poolAdd _ _ => true
  | .startOp _ _ | .retire _ _ _ | .endOp _ => false

/-- The calls `cs`, one after another. -/
def callAll (t : Fin N) (cs : List Call) (r : Reclaimer.State F Nat N) :
    Option (Reclaimer.State F Nat N) :=
  cs.foldlM (fun r c => Reclaimer.step 1 r (c.action t)) r

/-- What a step of the tree calls: it retires nodes, and its guard may end. -/
def RecordManager.notices (M : RecordManager) (retired : List Nat) (th : Thread K) : List Call :=
  retired.flatMap M.retire ++ if (starting th.pc).isSome then M.endGuard else []

/-- What a thread that is about to get a guard waits for. -/
def RecordManager.pending (M : RecordManager) (th : Thread K) : List Call :=
  match starting th.pc with
  | some op => M.getGuard (readOnly op)
  | none => []

def step (P : Provider K) (M : RecordManager) (b : Nat) (s : State F K N) :
    Action K P.Env N → Option (State F K N)
  | .call t op => do
      let tree ← Abtree.step P b s.tree (.call t op)
      some ⟨tree, s.reclaimer, Function.update s.pending t (M.getGuard (readOnly op))⟩
  | .guard t =>
      match s.pending t with
      | [] => none
      | c :: cs => do
          let reclaimer ← Reclaimer.step 1 s.reclaimer (c.action t)
          some ⟨s.tree, reclaimer, Function.update s.pending t cs⟩
  | .reclaim a =>
      if within a then
        (Reclaimer.step 1 s.reclaimer a).map fun r => { s with reclaimer := r }
      else none
  | .run t e =>
      if s.guarded t then do
        let th ← s.tree.threads[t.val]?
        let (heap, th', retired) ← instr P b s.tree.underWay s.tree.heap th e
        let reclaimer ← callAll t (M.notices retired th') s.reclaimer
        some
          { tree :=
              { heap := heap
                threads := s.tree.threads.set t th'
                retired := s.tree.retired ++ retired }
            reclaimer := reclaimer
            pending := Function.update s.pending t (M.pending th') }
      else none
  | .ret t => do
      let tree ← Abtree.step P b s.tree (.ret t)
      let reclaimer ← callAll t M.endGuard s.reclaimer
      some ⟨tree, reclaimer, s.pending⟩
  | .reuse x c =>
      if x ∈ s.pooled then
        some { s with tree := { s.tree with heap := s.tree.heap.set x c } }
      else none

/-- The event of a transition, if it is a call or a return. -/
def event {E : Type} (x : Trans (State F K N) (Action K E N)) :
    Option (Object.Event Nat (Op K) Result) :=
  match x.act with
  | .call t op => some (.call t op)
  | .ret t => (x.pre.tree.threads[t.val]?).map fun th => .ret t th.result
  | .guard _ | .reclaim _ | .run _ _ | .reuse _ _ => none

/-- The calls and the returns of a run. -/
def history {E : Type} (tr : List (Trans (State F K N) (Action K E N))) :
    List (Object.Event Nat (Op K) Result) :=
  tr.filterMap event

end

end Pacer.Managed
