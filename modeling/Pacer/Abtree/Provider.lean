import Pacer.Abtree.Node

set_option autoImplicit false

/-! # The nodes in memory, and the provider of LLX and SCX

The tree changes its nodes through `prov` only, the `SCXProvider` of `scx_provider.h`. That header
is not part of the repository, so the provider is a parameter: the fields of `Provider` give the
two functions that the tree calls, and what is documented of them. Nothing is assumed about when
an LLX or an SCX succeeds, how a thread helps others, or what the provider keeps for itself; all
that is in `Env`, which may be another one at every call.

What an LLX returns is a word that tells one state of a node from another. It stands for the number
of SCXs that have changed the node (`Cell.info`), as `Cell.marked` stands for being finalized: both
belong to the history of the node and are not read by the tree.
-/

namespace Pacer.Abtree

variable {K : Type}

/-! ## The memory -/

/-- A node, whether an SCX has finalized it, and how many SCXs have been linked to it. -/
structure Cell (K : Type) where
  node : Node K
  marked : Bool
  info : Nat
deriving DecidableEq

/-- All nodes ever published; an address is never used again. -/
abbrev Heap (K : Type) := List (Cell K)

/-- A node when it is published (`initNode`). -/
def Cell.fresh (n : Node K) : Cell K where
  node := n
  marked := false
  info := 0

@[simp] theorem Cell.fresh_node (n : Node K) : (Cell.fresh n).node = n := rfl

@[simp] theorem Cell.fresh_marked (n : Node K) : (Cell.fresh n).marked = false := rfl

@[simp] theorem Cell.fresh_info (n : Node K) : (Cell.fresh n).info = 0 := rfl

def entryLeft : Nat := 0

def entry : Nat := 1

namespace Heap

def node (h : Heap K) (x : Nat) : Option (Node K) := (h[x]?).map Cell.node

/-- The read `x->ptrs[ix]` of a child pointer. -/
def child (h : Heap K) (x ix : Nat) : Option Nat := do
  let n ← h.node x
  if n.isLeaf then none else n.ptrs[ix]?

/-- The node `x` is not finalized, and has not changed since an LLX of it returned `info`. -/
def Current (h : Heap K) (x info : Nat) : Prop :=
  ∃ c : Cell K, h[x]? = some c ∧ c.marked = false ∧ c.info = info

instance (h : Heap K) (x info : Nat) : Decidable (h.Current x info) :=
  decidable_of_iff ((h[x]?).any (fun c => !c.marked && c.info == info) = true)
    (by simp [Current, Option.any_eq_true])

end Heap

/-! ## The provider -/

inductive LlxResult where
  | fail
  | finalized
  | handle (info : Nat)
deriving DecidableEq

/-- A node given to `scxAddNode`, what the LLX of it returned, and whether it is to be finalized. -/
structure Added where
  node : Nat
  info : Nat
  finalize : Bool
deriving DecidableEq

/-- What `scxExecute` is called with: the nodes added, and the pointer `ix` of `g`, which is to be
`new` in the place of `old`. -/
structure Request where
  added : List Added
  g : Nat
  ix : Nat
  old : Nat
  new : Nat
deriving DecidableEq

namespace Request

def nodes (r : Request) : List Nat := r.added.map Added.node

def finalized (r : Request) : List Nat := (r.added.filter Added.finalize).map Added.node

/-- The compare-and-swap of the pointer. -/
def swing (r : Request) (n : Node K) : Node K :=
  if n.ptrs[r.ix]? = some r.old then { n with ptrs := n.ptrs.set r.ix r.new } else n

end Request

/-- **What an SCX that succeeds does**: none of the nodes added has changed since the LLX of it, the
pointer is swung, and the nodes that are to be finalized are, all at once; other nodes are left
alone. -/
structure Committed (h : Heap K) (r : Request) (h' : Heap K) : Prop where
  current : ∀ a ∈ r.added, h.Current a.node a.info
  length : h'.length = h.length
  node : ∀ x, h'.node x = (h.node x).map fun n => if x = r.g then r.swing n else n
  marked : ∀ x, (h'[x]?).map Cell.marked
    = (h[x]?).map fun c => c.marked || decide (x ∈ r.finalized)
  info : ∀ x, (h'[x]?).map Cell.info
    = (h[x]?).map fun c => if x ∈ r.nodes then c.info + 1 else c.info

/-- The provider of LLX and SCX. Both get the nodes of the SCXs that other threads have under way,
which they may help. -/
structure Provider (K : Type) where
  /-- what a call depends on besides the nodes -/
  Env : Type
  llx : Env → List Nat → Heap K → Nat → LlxResult
  /-- the memory after an SCX that succeeds; one that fails changes no node -/
  scxExecute : Env → List Nat → Heap K → Request → Option (Heap K)
  llx_handle : ∀ {e : Env} {others : List Nat} {h : Heap K} {x info : Nat} {c : Cell K},
    h[x]? = some c → llx e others h x = .handle info → c.marked = false ∧ c.info = info
  llx_finalized : ∀ {e : Env} {others : List Nat} {h : Heap K} {x : Nat} {c : Cell K},
    h[x]? = some c → llx e others h x = .finalized → c.marked = true
  scx_committed : ∀ {e : Env} {others : List Nat} {h h' : Heap K} {r : Request},
    scxExecute e others h r = some h' → Committed h r h'

/-- **What a call touches**: the nodes that it is called with, and those of the SCXs under way. -/
structure Provider.Confined (P : Provider K) : Prop where
  llx : ∀ {e : P.Env} {others : List Nat} {h h' : Heap K} {x : Nat},
    (∀ y, y = x ∨ y ∈ others → h'[y]? = h[y]?) → P.llx e others h' x = P.llx e others h x
  scxExecute : ∀ {e : P.Env} {others : List Nat} {h h' : Heap K} {r : Request},
    (∀ y, y = r.g ∨ y ∈ r.nodes ∨ y ∈ others → h'[y]? = h[y]?) →
    (P.scxExecute e others h' r).isSome = (P.scxExecute e others h r).isSome

/-! ## The effect of an SCX -/

/-- The memory after an SCX. -/
def Heap.commit (h : Heap K) (r : Request) : Heap K :=
  h.mapIdx fun x c =>
    { node := if x = r.g then r.swing c.node else c.node
      marked := c.marked || decide (x ∈ r.finalized)
      info := if x ∈ r.nodes then c.info + 1 else c.info }

theorem Heap.commit_getElem? (h : Heap K) (r : Request) (x : Nat) :
    (h.commit r)[x]? = (h[x]?).map fun c =>
      { node := if x = r.g then r.swing c.node else c.node
        marked := c.marked || decide (x ∈ r.finalized)
        info := if x ∈ r.nodes then c.info + 1 else c.info } := by
  rw [Heap.commit, List.getElem?_mapIdx]

/-- An SCX that succeeds has this effect and no other. -/
theorem Committed.eq_commit {h h' : Heap K} {r : Request} (C : Committed h r h') :
    h' = h.commit r := by
  refine List.ext_getElem? fun x => ?_
  rw [Heap.commit_getElem?]
  cases hc : h[x]? with
  | none =>
      rw [Option.map_none, List.getElem?_eq_none_iff, C.length]
      exact List.getElem?_eq_none_iff.mp hc
  | some c =>
      have hlt : x < h'.length := C.length ▸ (List.getElem?_eq_some_iff.mp hc).1
      obtain ⟨c', hc'⟩ : ∃ c', h'[x]? = some c' := ⟨_, List.getElem?_eq_getElem hlt⟩
      have hnode := C.node x
      have hmarked := C.marked x
      have hinfo := C.info x
      simp only [Heap.node, hc, hc', Option.map_some, Option.some.injEq] at hnode hmarked hinfo
      rw [hc', Option.map_some, ← hnode, ← hmarked, ← hinfo]

theorem committed_commit {h : Heap K} {r : Request}
    (hcur : ∀ a ∈ r.added, h.Current a.node a.info) : Committed h r (h.commit r) where
  current := hcur
  length := List.length_mapIdx
  node := fun x => by
    rw [Heap.node, Heap.node, Heap.commit_getElem?, Option.map_map, Option.map_map]
    rfl
  marked := fun x => by rw [Heap.commit_getElem?, Option.map_map]; rfl
  info := fun x => by rw [Heap.commit_getElem?, Option.map_map]; rfl

/-! ## A provider that is never disturbed -/

/-- Every call succeeds that may, unless the environment says no: the calls do not overlap. -/
@[reducible]
def Provider.atomic (K : Type) : Provider K where
  Env := Bool
  llx := fun ok _ h x =>
    match h[x]? with
    | some c => if !ok then .fail else if c.marked then .finalized else .handle c.info
    | none => .fail
  scxExecute := fun ok _ h r =>
    if ok = true ∧ ∀ a ∈ r.added, h.Current a.node a.info then some (h.commit r) else none
  llx_handle := by
    intro ok _ h x info c hc hr
    rw [hc] at hr
    cases ok <;> cases hm : c.marked <;> simp_all
  llx_finalized := by
    intro ok _ h x c hc hr
    rw [hc] at hr
    cases ok <;> cases hm : c.marked <;> simp_all
  scx_committed := by
    intro ok _ h h' r hs
    split at hs
    · rename_i hcur
      cases hs
      exact committed_commit hcur.2
    · cases hs

end Pacer.Abtree
