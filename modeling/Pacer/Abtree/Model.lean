import Pacer.Abtree.Provider
import Pacer.Lib.Run

set_option autoImplicit false

/-! # The lock-free relaxed (a,b)-tree as a machine

The threads that run `find`, `insert` and `erase` on the tree of `brown_ext_abtree_lf_impl.h`, in
any interleaving. One step of a thread reads or changes shared memory once; the fields of a node
other than its pointers never change, so reading them is part of the step before.

LLX and SCX are those of the provider `P`, each in one step: what a call does takes effect at one
moment of it.

The new nodes are built in the step of the SCX, from the pointers of that moment. The source reads
these pointers one by one between the LLXs and the SCX; when the SCX succeeds they have not
changed in between, and when it fails the new nodes are never seen.
-/

namespace Pacer.Abtree

open Machine

variable {K : Type} [LinearOrder K]

/-- `NO_VALUE`, the pointer `-1`. -/
def noValue : Nat := 0xFFFFFFFFFFFFFFFF

/-! ## Threads -/

inductive Op (K : Type) where
  | find (key : K)
  | insert (key : K) (value : Nat) (replace : Bool)
  | erase (key : K)
deriving DecidableEq

def Op.key : Op K → K
  | .find key => key
  | .insert key _ _ => key
  | .erase key => key

/-- A returned word, or a returned pair. -/
inductive Result where
  | value (v : Nat)
  | pair (v : Nat) (found : Bool)
deriving DecidableEq

/-- A call of `fixWeightViolation` or `fixDegreeViolation`. -/
inductive Fix where
  | weight (viol : Nat)
  | degree (viol : Nat)
deriving DecidableEq

def Fix.viol : Fix → Nat
  | .weight viol => viol
  | .degree viol => viol

/-- The loop a thread is in. -/
inductive Task (K : Type) where
  | op (op : Op K)
  | fix (f : Fix)
deriving DecidableEq

def Task.viol : Task K → Option Nat
  | .op _ => none
  | .fix f => some f.viol

/-- The variables of a search. `above` is `gp` with `ixToP`, which are `NULL` and `-1` at first. -/
structure Cursor where
  above : Option (Nat × Nat)
  p : Nat
  l : Nat
  ixToL : Nat
deriving DecidableEq

/-- A node to be linked by an LLX, the pointer of it that is checked afterwards, and whether the
SCX finalizes it. -/
structure Link where
  node : Nat
  pointer : Option (Nat × Nat)
  finalize : Bool
deriving DecidableEq

/-- An update after its search: the nodes that are linked already, each with its handle, and those
that are left. -/
structure Attempt (K : Type) where
  task : Task K
  cur : Cursor
  sibling : Option Nat
  linked : List (Link × Nat)
  todo : List Link
deriving DecidableEq

/-- What a thread does next. -/
inductive Pc (K : Type) where
  | idle
  /-- get a guard of the record manager -/
  | begin (op : Op K)
  /-- read the root, the child of the entry -/
  | enter (task : Task K)
  | search (task : Task K) (key : K) (cur : Cursor)
  /-- the test at the head of a fix -/
  | check (f : Fix)
  /-- the LLX that looks whether the violation is gone -/
  | inspect (f : Fix)
  | llx (w : Attempt K)
  /-- check the pointer of the node that has just been linked -/
  | recheck (w : Attempt K) (info : Nat)
  /-- look at the sibling and at the weights -/
  | sibling (w : Attempt K)
  | scx (w : Attempt K)
  | retire (nodes : List Nat)
  | ret
deriving DecidableEq

/-- What is left to do after a fix: a call, or another round of the loop that made the call. -/
inductive Frame where
  | call (f : Fix)
  | loop (f : Fix)
deriving DecidableEq

structure Thread (K : Type) where
  pc : Pc K
  stack : List Frame
  result : Result
deriving DecidableEq

namespace Thread

/-- Return from a fix, or from the operation if there is nothing left to fix. -/
def pop (th : Thread K) : Thread K :=
  match th.stack with
  | [] => { th with pc := .ret }
  | .call f :: stack => { th with pc := .check f, stack := stack }
  | .loop f :: stack => { th with pc := .enter (.fix f), stack := stack }

/-- The operation returns `r` without an update. -/
def finish (th : Thread K) (r : Result) : Thread K := { th with result := r }.pop

def push (th : Thread K) (frames : List Frame) : Thread K :=
  { th with stack := frames ++ th.stack }

/-- Start the loop again, an operation with a new guard. -/
def retry (th : Thread K) : Task K → Thread K
  | .op op => { th with pc := .begin op }
  | .fix f => { th with pc := .enter (.fix f) }

/-- Go on with the next LLX, or with what follows the last one. -/
def advance (th : Thread K) (w : Attempt K) : Thread K :=
  match w.todo with
  | _ :: _ => { th with pc := .llx w }
  | [] =>
      match w.task, w.sibling with
      | .fix (.degree _), none => { th with pc := .sibling w }
      | _, _ => { th with pc := .scx w }

end Thread

structure State (K : Type) where
  heap : Heap K
  threads : List (Thread K)
  /-- the nodes passed to the record manager, in order -/
  retired : List Nat
deriving DecidableEq

/-! ## The updates -/

/-- What an SCX does, and what the thread does after it. -/
structure Update (K : Type) where
  g : Nat
  ix : Nat
  old : Nat
  new : Nat
  news : List (Node K)
  retire : List Nat
  calls : List Fix
  result : Option Result

/-- `doInsert` at the leaf `l`. -/
def buildInsert (b : Nat) (c : Cursor) (l : Node K) (key : K) (value fresh : Nat) :
    Option (Update K) :=
  let keyIndex := l.getKeyIndex key
  if l.hasKey key then do
    let oldValue ← l.ptrs[keyIndex]?
    some
      { g := c.p, ix := c.ixToL, old := c.l, new := fresh, news := [replaceValue l keyIndex value]
        retire := [c.l], calls := [.degree fresh], result := some (.value oldValue) }
  else if l.getKeyCount < b then
    some
      { g := c.p, ix := c.ixToL, old := c.l, new := fresh, news := [insertPair l keyIndex key value]
        retire := [c.l], calls := [.degree fresh], result := some (.value noValue) }
  else do
    let (left, right, n) ←
      overflow b l keyIndex key value fresh (fresh + 1) (decide (c.p = entry))
    some
      { g := c.p, ix := c.ixToL, old := c.l, new := fresh + 2, news := [left, right, n]
        retire := [c.l], calls := [.weight (fresh + 2)], result := some (.value noValue) }

/-- `erase` at the leaf `l`. -/
def buildErase (c : Cursor) (l : Node K) (key : K) (fresh : Nat) : Option (Update K) := do
  let keyIndex := l.getKeyIndex key
  let n ← eraseKey l keyIndex
  let oldValue ← l.ptrs[keyIndex]?
  some
    { g := c.p, ix := c.ixToL, old := c.l, new := fresh, news := [n]
      retire := [c.l], calls := [.degree fresh], result := some (.pair oldValue true) }

/-- `fixWeightViolation` at `l` with parent `p`. -/
def buildWeight (b : Nat) (c : Cursor) (p l : Node K) (fresh : Nat) : Option (Update K) := do
  let (gp, ixToP) ← c.above
  if p.getABDegree + l.getABDegree - 1 ≤ b then
    let n ← absorb p l c.ixToL
    some
      { g := gp, ix := ixToP, old := c.p, new := fresh, news := [n]
        retire := [c.p, c.l], calls := [.degree fresh], result := none }
  else
    let (left, right, n) ← split p l c.ixToL fresh (fresh + 1) (decide (gp = entry))
    some
      { g := gp, ix := ixToP, old := c.p, new := fresh + 2, news := [left, right, n]
        retire := [c.p, c.l], calls := [.weight (fresh + 2), .degree (fresh + 2)]
        result := none }

/-- The index of the sibling that is merged with the child at `ixToL`. -/
def ixToS (ixToL : Nat) : Nat := if 0 < ixToL then ixToL - 1 else 1

/-- `a`, the least degree of a node without violation. -/
def minDegree (b : Nat) : Nat := max (b / 4) 2

/-- AbsorbSibling or Distribute at `left` and `right`, which are `l` with the search key `searchKey`
and its sibling `sAddr` in the order in which they stand under `p`. -/
def buildSiblings (b : Nat) (c : Cursor) (gp ixToP sAddr : Nat) (p left right : Node K)
    (leftindex rightindex : Nat) (searchKey : K) (fresh : Nat) : Option (Update K) := do
  if !(left.weight && right.weight) then none
  if left.getABDegree + right.getABDegree < 2 * minDegree b then
    let newl ← absorbSibling p left right leftindex searchKey
    if gp = entry ∧ p.getABDegree = 2 then
      some
        { g := gp, ix := ixToP, old := c.p, new := fresh, news := [newl]
          retire := [c.p, c.l, sAddr], calls := [.degree fresh], result := none }
    else
      if !(decide (gp ≠ entry) || decide (p.getABDegree > 2)) then none
      some
        { g := gp, ix := ixToP, old := c.p, new := fresh + 1
          news := [newl, withoutSibling p leftindex c.ixToL (ixToS c.ixToL) fresh]
          retire := [c.p, c.l, sAddr], calls := [.degree fresh, .degree (fresh + 1)]
          result := none }
  else
    let (n, newleft, newright) ←
      distribute p left right leftindex rightindex (fresh + 1) (fresh + 2)
    some
      { g := gp, ix := ixToP, old := c.p, new := fresh, news := [n, newleft, newright]
        retire := [c.p, c.l, sAddr], calls := [.degree fresh], result := none }

/-- `fixDegreeViolation` at `l` with parent `p` and sibling `s`. -/
def buildDegree (b : Nat) (c : Cursor) (sAddr : Nat) (p l s : Node K) (fresh : Nat) :
    Option (Update K) := do
  let (gp, ixToP) ← c.above
  let ixS := ixToS c.ixToL
  if c.ixToL < ixS then
    buildSiblings b c gp ixToP sAddr p l s c.ixToL ixS l.searchKey fresh
  else
    buildSiblings b c gp ixToP sAddr p s l ixS c.ixToL l.searchKey fresh

/-- The new nodes of an attempt whose nodes are all linked. -/
def build (b : Nat) (h : Heap K) (w : Attempt K) : Option (Update K) := do
  let l ← h.node w.cur.l
  match w.task with
  | .op (.find _) => none
  | .op (.insert key value _) => buildInsert b w.cur l key value h.length
  | .op (.erase key) => buildErase w.cur l key h.length
  | .fix (.weight _) => do
      let p ← h.node w.cur.p
      buildWeight b w.cur p l h.length
  | .fix (.degree _) => do
      let p ← h.node w.cur.p
      let sAddr ← w.sibling
      let s ← h.node sAddr
      buildDegree b w.cur sAddr p l s h.length

/-! ## The steps of a thread -/

/-- The links of an operation: the parent of the leaf. Leaves never change. -/
def opLinks (c : Cursor) : List Link := [⟨c.p, some (c.ixToL, c.l), false⟩]

/-- The links of a fix: the grandparent, and the parent, which is removed. -/
def fixLinks (c : Cursor) : Option (List Link) := do
  let (gp, ixToP) ← c.above
  some [⟨gp, some (ixToP, c.p), false⟩, ⟨c.p, some (c.ixToL, c.l), true⟩]

/-- The search has come to `c.l`, a leaf or the node to be fixed. -/
def arrived (h : Heap K) (th : Thread K) (task : Task K) (c : Cursor) (l : Node K) :
    Option (Thread K) :=
  match task with
  | .op (.find key) =>
      if l.hasKey key then do
        let value ← l.ptrs[l.getKeyIndex key]?
        some (th.finish (.pair value true))
      else some (th.finish (.pair noValue false))
  | .op (.insert key _ replace) =>
      if l.hasKey key && !replace then do
        let oldValue ← l.ptrs[l.getKeyIndex key]?
        some (th.finish (.value oldValue))
      else some (th.advance ⟨task, c, none, [], opLinks c⟩)
  | .op (.erase key) =>
      if l.hasKey key then some (th.advance ⟨task, c, none, [], opLinks c⟩)
      else some (th.finish (.pair noValue false))
  | .fix (.weight viol) =>
      if c.l ≠ viol then some th.pop
      else do
        let p ← h.node c.p
        if !p.weight then
          some (th.push [.call (.weight c.p), .loop (.weight viol)]).pop
        else
          let links ← fixLinks c
          some (th.advance
            ⟨task, c, none, [], links ++ if l.isLeaf then [] else [⟨c.l, none, true⟩]⟩)
  | .fix (.degree viol) =>
      if c.l ≠ viol then some th.pop
      else do
        let links ← fixLinks c
        some (th.advance ⟨task, c, none, [], links⟩)

/-- The calls for the weight violations at `p`, `l` and the sibling. -/
def weightCall (x : Nat) (n : Node K) : List Frame :=
  if n.weight then [] else [.call (.weight x)]

/-- `fixDegreeViolation` between the LLX of the parent and those of `l` and its sibling. -/
def lookAtSibling (h : Heap K) (th : Thread K) (w : Attempt K) : Option (Thread K) := do
  let c := w.cur
  let p ← h.node c.p
  -- if the parent has no other child, this is an unused entry, and it is not followed
  let s := h.child c.p (ixToS c.ixToL)
  let l ← h.node c.l
  let calls := weightCall c.p p ++ weightCall c.l l
  if p.size = 1 then
    -- the violation is left to a higher level
    some (th.push calls).pop
  else
    let s ← s
    let sNode ← h.node s
    let calls := calls ++ weightCall s sNode
    if calls ≠ [] then
      match w.task with
      | .fix f => some (th.push (calls ++ [.loop f])).pop
      | .op _ => none
    else
      let (left, right, leftNode) :=
        if c.ixToL < ixToS c.ixToL then (c.l, s, l) else (s, c.l, sNode)
      let links : List Link :=
        if leftNode.isLeaf then [] else [⟨left, none, true⟩, ⟨right, none, true⟩]
      some (th.advance { w with sibling := some s, todo := links })

/-- The nodes an SCX of the attempt is linked to, and those it finalizes. -/
def Attempt.nodes (w : Attempt K) : List Nat := w.linked.map fun e => e.1.node

def Attempt.finalized (w : Attempt K) : List Nat :=
  (w.linked.filter fun e => e.1.finalize).map fun e => e.1.node

/-- The call of `scxExecute`. -/
def Attempt.request (w : Attempt K) (u : Update K) : Request where
  added := w.linked.map fun e => ⟨e.1.node, e.2, e.1.finalize⟩
  g := u.g
  ix := u.ix
  old := u.old
  new := u.new

/-- The nodes of the SCX that a thread has under way. -/
def Thread.underWay (th : Thread K) : List Nat :=
  match th.pc with
  | .scx w => w.nodes
  | _ => []

/-- One step of a thread: the heap, the thread and the nodes retired by it. -/
def instr (P : Provider K) (b : Nat) (others : List Nat) (h : Heap K) (th : Thread K)
    (e : P.Env) : Option (Heap K × Thread K × List Nat) :=
  match th.pc with
  | .idle => none
  | .begin op => some (h, { th with pc := .enter (.op op) }, [])
  | .enter task => do
      let l ← h.child entry 0
      let key ← match task with
        | .op op => some op.key
        | .fix f => (h.node f.viol).map Node.searchKey
      some (h, { th with pc := .search task key ⟨none, entry, l, 0⟩ }, [])
  | .search task key c => do
      let l ← h.node c.l
      if l.isLeaf || task.viol == some c.l then
        let th' ← arrived h th task c l
        some (h, th', [])
      else
        let ix := l.getChildIndex key
        let next ← h.child c.l ix
        some (h, { th with pc := .search task key ⟨some (c.p, c.ixToL), c.l, next, ix⟩ }, [])
  | .check (.weight viol) => do
      let n ← h.node viol
      some (h, if n.weight then th.pop else { th with pc := .inspect (.weight viol) }, [])
  | .check (.degree viol) => do
      let n ← h.node viol
      if n.getABDegree ≥ minDegree b ∨ viol = entry then some (h, th.pop, [])
      else
        let root ← h.child entry 0
        some (h, if viol = root then th.pop else { th with pc := .inspect (.degree viol) }, [])
  | .inspect f => do
      let _ ← h.node f.viol
      some (h,
        if P.llx e others h f.viol = .finalized then th.pop else { th with pc := .enter (.fix f) },
        [])
  | .llx w =>
      match w.todo with
      | [] => none
      | link :: todo => do
          let _ ← h.node link.node
          match P.llx e others h link.node with
          | .handle info =>
              some (h,
                if link.pointer.isSome then { th with pc := .recheck w info }
                else th.advance { w with linked := w.linked ++ [(link, info)], todo := todo }, [])
          | _ => some (h, th.retry w.task, [])
  | .recheck w info =>
      match w.todo with
      | [] => none
      | link :: todo => do
          let (ix, expected) ← link.pointer
          let next ← h.child link.node ix
          some (h,
            if next = expected then
              th.advance { w with linked := w.linked ++ [(link, info)], todo := todo }
            else th.retry w.task, [])
  | .sibling w => do
      let th' ← lookAtSibling h th w
      some (h, th', [])
  | .scx w => do
      let u ← build b h w
      match P.scxExecute e others h (w.request u) with
      | some h' =>
          -- the nodes that the pointer leads to now are published
          some (h' ++ u.news.map Cell.fresh,
            { pc := .retire u.retire
              stack := u.calls.map Frame.call ++ th.stack
              result := u.result.getD th.result }, [])
      | none => some (h, th.retry w.task, [])
  | .retire [] => some (h, th.pop, [])
  | .retire (x :: nodes) => some (h, { th with pc := .retire nodes }, [x])
  | .ret => none

/-! ## The machine -/

inductive Action (K E : Type) where
  | call (t : Nat) (op : Op K)
  /-- the next step of thread `t`, and what the provider does in it depends on `e` -/
  | run (t : Nat) (e : E)
  | ret (t : Nat)
deriving DecidableEq

/-- The nodes of all SCXs that are under way. -/
def State.underWay (s : State K) : List Nat := s.threads.flatMap Thread.underWay

def step (P : Provider K) (b : Nat) (s : State K) : Action K P.Env → Option (State K)
  | .call t op => do
      let th ← s.threads[t]?
      if th.pc = .idle then
        some { s with threads := s.threads.set t { th with pc := .begin op } }
      else none
  | .run t e => do
      let th ← s.threads[t]?
      let (heap, th', retired) ← instr P b s.underWay s.heap th e
      some
        { heap := heap
          threads := s.threads.set t th'
          retired := s.retired ++ retired }
  | .ret t => do
      let th ← s.threads[t]?
      if th.pc = .ret then
        some { s with threads := s.threads.set t { th with pc := .idle } }
      else none

/-- The tree of the constructor, an entry over an empty leaf, and `numProcesses` threads. -/
def init (anyKey : K) (numProcesses : Nat) : State K where
  heap :=
    [.fresh { leaf := true, weight := true, size := 0, searchKey := anyKey, keys := []
              ptrs := [] },
     .fresh { leaf := false, weight := true, size := 1, searchKey := anyKey, keys := []
              ptrs := [entryLeft] }]
  threads := List.replicate numProcesses { pc := .idle, stack := [], result := .value noValue }
  retired := []

/-! ## The dictionary in the tree -/

/-- The value a leaf holds for a key. -/
def Node.value (n : Node K) (key : K) : Option Nat :=
  if n.hasKey key then n.ptrs[n.getKeyIndex key]? else none

/-- The leaf that a search for `key` from `x` comes to when nothing else happens. -/
def Heap.leafOf (h : Heap K) (key : K) : Nat → Nat → Option (Node K)
  | 0, _ => none
  | fuel + 1, x =>
      match h.node x with
      | none => none
      | some n =>
          if n.isLeaf then some n
          else (n.ptrs[n.getChildIndex key]?).bind (h.leafOf key fuel)

/-- What the tree holds for a key. -/
def Heap.content (h : Heap K) (key : K) : Option Nat :=
  (h.leafOf key h.length entry).bind fun n => n.value key

end Pacer.Abtree
