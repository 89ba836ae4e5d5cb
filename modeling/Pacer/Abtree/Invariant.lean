import Pacer.Abtree.Model
import Pacer.Lib.RangeGraph
import Mathlib.Algebra.Order.Ring.Rat

set_option autoImplicit false

/-! # The shape of the tree

The heap is a search graph (`Heap.graph`) in which no node ever changes the keys it answers for.
A node gets a label when it is published: the set of these keys, its level, which counts the
nodes of weight one below it, and a position that grows along the pointers. `Labelled` says what
the labels of all published nodes have to do with each other; the nodes that are no longer in the
tree are part of it, since threads may still be visiting them.
-/

namespace Pacer.Abtree

open Separators RangeGraph

variable {K : Type} [LinearOrder K]

/-! ## Copies -/

section Arraycopy

variable {α : Type*}

theorem arraycopy_zero (src : List α) (len : Nat) : arraycopy src 0 len = src.take len := by
  rw [arraycopy, List.drop_zero]

theorem arraycopy_all {src : List α} {len : Nat} (h : src.length = len) :
    arraycopy src 0 len = src := by
  rw [arraycopy_zero, ← h, List.take_length]

theorem arraycopy_rest {src : List α} {len : Nat} (h : src.length = len) (start : Nat) :
    arraycopy src start (len - start) = src.drop start := by
  rw [arraycopy, List.take_of_length_le (by rw [List.length_drop, h])]

end Arraycopy

/-! ## Reading the heap -/

section

omit [LinearOrder K]

theorem Heap.node_eq_some {h : Heap K} {x : Nat} {n : Node K} :
    h.node x = some n ↔ ∃ c, h[x]? = some c ∧ c.node = n := by
  simp [Heap.node]

theorem Heap.node_lt {h : Heap K} {x : Nat} {n : Node K} (hx : h.node x = some n) :
    x < h.length := by
  obtain ⟨c, hc, -⟩ := Heap.node_eq_some.mp hx
  exact (List.getElem?_eq_some_iff.mp hc).1

theorem Heap.exists_node {h : Heap K} {x : Nat} (hx : x < h.length) : ∃ n, h.node x = some n :=
  ⟨h[x].node, Heap.node_eq_some.mpr ⟨h[x], List.getElem?_eq_getElem hx, rfl⟩⟩

end

/-- The children of a node; the words of a leaf are values. -/
def Node.kids (n : Node K) : List Nat := if n.leaf then [] else n.ptrs

section

omit [LinearOrder K]

theorem Node.kids_leaf {n : Node K} (h : n.leaf = true) : n.kids = [] := if_pos h

theorem Node.kids_inner {n : Node K} (h : n.leaf = false) : n.kids = n.ptrs := by
  simp [Node.kids, h]

theorem Node.inner_of_kid {n : Node K} {c : Nat} (h : c ∈ n.kids) : n.leaf = false := by
  cases hl : n.leaf with
  | false => rfl
  | true => rw [Node.kids_leaf hl] at h; cases h

theorem Node.getKeyCount_leaf {n : Node K} (h : n.leaf = true) : n.getKeyCount = n.size :=
  if_pos h

theorem Node.getKeyCount_inner {n : Node K} (h : n.leaf = false) :
    n.getKeyCount = n.size - 1 := if_neg (by simp [Node.isLeaf, h])

end

/-- The heap as a search graph. -/
def Heap.graph (h : Heap K) : RangeGraph K Nat where
  kids x := ((h.node x).map Node.kids).getD []
  dir key x := ((h.node x).map fun n => n.getChildIndex key).getD 0

theorem Heap.graph_kids {h : Heap K} {x : Nat} {n : Node K} (hx : h.node x = some n) :
    h.graph.kids x = n.kids := by
  simp [Heap.graph, hx]

theorem Heap.graph_dir {h : Heap K} {x : Nat} {n : Node K} (hx : h.node x = some n) (key : K) :
    h.graph.dir key x = n.getChildIndex key := by
  simp [Heap.graph, hx]

/-- A pointer that can be read is an edge. -/
theorem Heap.child_eq_some {h : Heap K} {x ix c : Nat} :
    h.child x ix = some c ↔ (h.graph.kids x)[ix]? = some c := by
  cases hx : h.node x with
  | none => simp [Heap.child, Heap.graph, hx]
  | some n => cases hl : n.leaf <;> simp [Heap.child, Heap.graph, hx, Node.kids, Node.isLeaf, hl]

abbrev Heap.Member (h : Heap K) (x : Nat) : Prop := h.graph.Member entry x

/-- The weight of the node at an address. -/
def Heap.weight (h : Heap K) (x : Nat) : Nat :=
  match h.node x with
  | some n => if n.weight then 1 else 0
  | none => 0

omit [LinearOrder K] in
theorem Heap.weight_eq {h : Heap K} {x : Nat} {n : Node K} (hx : h.node x = some n) :
    h.weight x = if n.weight then 1 else 0 := by
  simp [Heap.weight, hx]

/-! ## Labels -/

/-- The label of a node: the keys it answers for, the number of nodes of weight one between it and
the leaves, and its position. -/
structure Label (K : Type) where
  range : Set K
  level : Nat
  pos : ℚ

abbrev Labels (K : Type) := Nat → Label K

/-- A node on its own: the used parts of its arrays have the right lengths. -/
structure NodeOk (b : Nat) (n : Node K) : Prop where
  ptrs_length : n.ptrs.length = n.size
  keys_length : n.keys.length = n.getKeyCount
  size_le : n.size ≤ b
  leaf_weight : n.leaf = true → n.weight = true
  leaf_sorted : n.leaf = true → n.keys.Pairwise (· < ·)
  inner_size : n.leaf = false → 1 ≤ n.size
  zero_size : n.weight = false → n.size = 2

/-- A node among its children. -/
structure NodeAt (h : Heap K) (lab : Labels K) (x : Nat) (n : Node K) : Prop where
  search_mem : n.searchKey ∈ (lab x).range
  keys_mem : ∀ k ∈ n.keys, k ∈ (lab x).range
  tiles : n.leaf = false → Tiles (lab x).range n.keys (n.ptrs.map fun c => (lab c).range)
  kid_lt : ∀ c ∈ n.kids, c < h.length
  kid_pos : ∀ c ∈ n.kids, (lab x).pos < (lab c).pos
  leaf_level : n.leaf = true → (lab x).level = 0
  inner_level : n.leaf = false → 1 ≤ (lab x).level
  kid_level : x ≠ entry → ∀ c ∈ n.kids, (lab c).level + h.weight c = (lab x).level

/-- A leaf has no children to be among. -/
theorem nodeAt_leaf {h : Heap K} {lab : Labels K} {x : Nat} {n : Node K} (hleaf : n.leaf = true)
    (hsearch : n.searchKey ∈ (lab x).range) (hkeys : ∀ k ∈ n.keys, k ∈ (lab x).range)
    (hlevel : (lab x).level = 0) : NodeAt h lab x n where
  search_mem := hsearch
  keys_mem := hkeys
  tiles := fun hinner => absurd (hleaf.symm.trans hinner) (by simp)
  kid_lt := by rw [Node.kids_leaf hleaf]; exact fun c hc => by cases hc
  kid_pos := by rw [Node.kids_leaf hleaf]; exact fun c hc => by cases hc
  leaf_level := fun _ => hlevel
  inner_level := fun hinner => absurd (hleaf.symm.trans hinner) (by simp)
  kid_level := by rw [Node.kids_leaf hleaf]; exact fun _ c hc => by cases hc

/-- **The invariant of the heap.** -/
structure Labelled (b : Nat) (h : Heap K) (lab : Labels K) : Prop where
  node_ok : ∀ x n, h.node x = some n → NodeOk b n
  node_at : ∀ x n, h.node x = some n → NodeAt h lab x n
  entry_node : ∃ n, h.node entry = some n ∧ n.leaf = false ∧ n.weight = true ∧ n.size = 1
  entry_range : (lab entry).range = Set.univ
  root_weight : ∀ r n, h.child entry 0 = some r → h.node r = some n → n.weight = true
  marked_iff : ∀ (x : Nat) (c : Cell K), h[x]? = some c → c.node.leaf = false →
    (c.marked = true ↔ ¬ h.Member x)
  leaf_unmarked : ∀ (x : Nat) (c : Cell K), h[x]? = some c → c.node.leaf = true → c.marked = false

/-- In a node whose key list is as long as it should be, the search loops see all of it. -/
theorem NodeOk.getChildIndex_eq {b : Nat} {n : Node K} (h : NodeOk b n) (key : K) :
    n.getChildIndex key = childIndex n.keys key := by
  rw [Node.getChildIndex, ← h.keys_length, List.take_length]

theorem NodeOk.getKeyIndex_eq {b : Nat} {n : Node K} (h : NodeOk b n) (key : K) :
    n.getKeyIndex key = keyIndex n.keys key := by
  rw [Node.getKeyIndex, ← h.keys_length, List.take_length]

namespace Labelled

variable {b : Nat} {h : Heap K} {lab : Labels K}

theorem kid_lt (L : Labelled b h lab) {x c : Nat} (hc : c ∈ h.graph.kids x) : c < h.length := by
  cases hx : h.node x with
  | none => simp [Heap.graph, hx] at hc
  | some n =>
      rw [Heap.graph_kids hx] at hc
      exact (L.node_at x n hx).kid_lt c hc

/-- The labels of the heap are labels of its search graph. -/
theorem ranged (L : Labelled b h lab) :
    h.graph.Ranged entry (· < h.length) (fun x => (lab x).range) (fun x => (lab x).pos) where
  root_pub := by
    obtain ⟨n, hn, -⟩ := L.entry_node
    exact Heap.node_lt hn
  root_range := L.entry_range
  nonempty := by
    intro x hx
    obtain ⟨n, hn⟩ := Heap.exists_node hx
    exact ⟨n.searchKey, (L.node_at x n hn).search_mem⟩
  kid_pub := fun _ _ _ hc => L.kid_lt hc
  kid_range := by
    intro x i c hx hi k
    obtain ⟨n, hn⟩ := Heap.exists_node hx
    rw [Heap.graph_kids hn] at hi
    have hinner := Node.inner_of_kid (List.mem_of_getElem? hi)
    rw [Node.kids_inner hinner] at hi
    rw [Heap.graph_dir hn, (L.node_ok x n hn).getChildIndex_eq]
    exact ((L.node_at x n hn).tiles hinner).mem_iff (by rw [List.getElem?_map, hi]; rfl) k
  kid_pos := by
    intro x c hx hc
    obtain ⟨n, hn⟩ := Heap.exists_node hx
    rw [Heap.graph_kids hn] at hc
    exact (L.node_at x n hn).kid_pos c hc

/-- The child of an internal node that a key is routed to exists. -/
theorem exists_next (L : Labelled b h lab) {x : Nat} {n : Node K} (hx : h.node x = some n)
    (hinner : n.leaf = false) (key : K) : ∃ c, h.child x (n.getChildIndex key) = some c := by
  have hok := L.node_ok x n hx
  have hlen := ((L.node_at x n hx).tiles hinner).length_eq
  have hle := childIndex_le n.keys key
  rw [List.length_map] at hlen
  have hlt : n.getChildIndex key < n.ptrs.length := by
    rw [hok.getChildIndex_eq]
    omega
  refine ⟨n.ptrs[n.getChildIndex key], ?_⟩
  rw [Heap.child_eq_some, Heap.graph_kids hx, Node.kids_inner hinner]
  exact List.getElem?_eq_getElem hlt

/-- The entry has one child, the root, and answers for every key. -/
theorem exists_root (L : Labelled b h lab) :
    ∃ r n, h.child entry 0 = some r ∧ h.graph.kids entry = [r] ∧ h.node r = some n := by
  obtain ⟨e, he, hleaf, -, hsize⟩ := L.entry_node
  have hlen := (L.node_ok entry e he).ptrs_length
  rw [hsize] at hlen
  obtain ⟨r, hr⟩ := List.length_eq_one_iff.mp hlen
  have hkids : h.graph.kids entry = [r] := by
    rw [Heap.graph_kids he, Node.kids_inner hleaf, hr]
  obtain ⟨n, hn⟩ := Heap.exists_node (L.kid_lt (hkids ▸ List.mem_singleton_self r))
  exact ⟨r, n, by rw [Heap.child_eq_some, hkids]; rfl, hkids, hn⟩

/-- An internal node is a member as long as it is not marked. -/
theorem member_of_unmarked (L : Labelled b h lab) {x : Nat} {c : Cell K} (hx : h[x]? = some c)
    (hinner : c.node.leaf = false) (hmark : c.marked = false) : h.Member x := by
  by_contra hno
  rw [(L.marked_iff x c hx hinner).mpr hno] at hmark
  cases hmark

theorem parent_eq (L : Labelled b h lab) {x y c : Nat} (hx : h.Member x) (hy : h.Member y)
    (hcx : c ∈ h.graph.kids x) (hcy : c ∈ h.graph.kids y) : x = y := by
  obtain ⟨i, hi⟩ := List.getElem?_of_mem hcx
  obtain ⟨j, hj⟩ := List.getElem?_of_mem hcy
  exact (L.ranged.parent_unique hx hy hi hj).1

theorem kids_nodup (L : Labelled b h lab) {x : Nat} (hx : h.Member x) :
    (h.graph.kids x).Nodup := by
  rw [List.nodup_iff_getElem?_ne_getElem?]
  intro i j hij hj heq
  exact Nat.ne_of_lt hij
    (L.ranged.parent_unique hx hx (List.getElem?_eq_getElem hj |> heq.trans)
      (List.getElem?_eq_getElem hj)).2

theorem kid_pos (L : Labelled b h lab) {x c : Nat} (hc : c ∈ h.graph.kids x) :
    (lab x).pos < (lab c).pos := by
  cases hx : h.node x with
  | none => simp [Heap.graph, hx] at hc
  | some n =>
      rw [Heap.graph_kids hx] at hc
      exact (L.node_at x n hx).kid_pos c hc

/-- The entry is nobody's child. -/
theorem kid_ne_entry (L : Labelled b h lab) {x c : Nat} (hx : h.Member x)
    (hc : c ∈ h.graph.kids x) : c ≠ entry := by
  rintro rfl
  obtain ⟨k, hk⟩ := L.ranged.nonempty x (L.ranged.member_pub hx)
  have hle := L.ranged.pos_le (L.ranged.reaches_of_member hx hk) L.ranged.root_pub
  exact absurd (L.kid_pos hc) (not_lt.mpr hle)

/-- An internal node cut at one of its children. -/
theorem inner_cut (L : Labelled b h lab) {p c i : Nat} {n : Node K} (hp : h.node p = some n)
    (hc : h.child p i = some c) : ∃ A B P Q, n.keys = A ++ B ∧ n.ptrs = P ++ c :: Q
      ∧ A.length = i ∧ P.length = i ∧ Q.length = B.length ∧ n.leaf = false := by
  rw [Heap.child_eq_some, Heap.graph_kids hp] at hc
  have hinner := Node.inner_of_kid (List.mem_of_getElem? hc)
  rw [Node.kids_inner hinner] at hc
  have hlen := ((L.node_at p n hp).tiles hinner).length_eq
  rw [List.length_map] at hlen
  obtain ⟨hlt, hget⟩ := List.getElem?_eq_some_iff.mp hc
  refine ⟨n.keys.take i, n.keys.drop i, n.ptrs.take i, n.ptrs.drop (i + 1),
    (List.take_append_drop i _).symm, ?_, ?_, ?_, ?_, hinner⟩
  · rw [← hget, ← List.drop_eq_getElem_cons hlt, List.take_append_drop]
  · rw [List.length_take]
    omega
  · rw [List.length_take]
    omega
  · rw [List.length_drop, List.length_drop]
    omega

/-- A leaf is on the level zero and only a leaf is. -/
theorem level_eq_zero_iff (L : Labelled b h lab) {x : Nat} {n : Node K} (hx : h.node x = some n) :
    (lab x).level = 0 ↔ n.leaf = true := by
  have hat := L.node_at x n hx
  cases hl : n.leaf with
  | true => simp [hat.leaf_level hl]
  | false =>
      have := hat.inner_level hl
      simp
      omega

end Labelled

/-! ## The first tree -/

/-- The labels of the constructor's tree. -/
def initLabels (K : Type) : Labels K := fun x =>
  { range := Set.univ
    level := if x = entry then 1 else 0
    pos := if x = entry then 0 else 1 }

omit [LinearOrder K] in
theorem init_nodes (anyKey : K) (numProcesses x : Nat) (c : Cell K)
    (hx : (init anyKey numProcesses).heap[x]? = some c) :
    c.marked = false ∧
    ((x = entryLeft ∧ c.node = ⟨true, true, 0, anyKey, [], []⟩)
      ∨ (x = entry ∧ c.node = ⟨false, true, 1, anyKey, [], [entryLeft]⟩)) := by
  match x with
  | 0 => cases hx; exact ⟨rfl, Or.inl ⟨rfl, rfl⟩⟩
  | 1 => cases hx; exact ⟨rfl, Or.inr ⟨rfl, rfl⟩⟩
  | x + 2 => simp [init] at hx

theorem labelled_init {b : Nat} (hb : 1 ≤ b) (anyKey : K) (numProcesses : Nat) :
    Labelled b (init anyKey numProcesses).heap (initLabels K) where
  node_ok := by
    intro x n hn
    obtain ⟨c, hc, rfl⟩ := Heap.node_eq_some.mp hn
    obtain ⟨-, ⟨-, h⟩ | ⟨-, h⟩⟩ := init_nodes anyKey numProcesses x c hc <;> rw [h] <;>
      constructor <;> simp [Node.getKeyCount, Node.isLeaf, hb]
  node_at := by
    intro x n hn
    obtain ⟨c, hc, rfl⟩ := Heap.node_eq_some.mp hn
    obtain ⟨-, ⟨rfl, h⟩ | ⟨rfl, h⟩⟩ := init_nodes anyKey numProcesses x c hc <;> rw [h] <;>
      constructor <;> simp [Node.kids, initLabels, entry, entryLeft, init]
  entry_node := ⟨_, rfl, rfl, rfl, rfl⟩
  entry_range := rfl
  root_weight := by
    intro r n hr hn
    cases hr
    cases hn
    rfl
  marked_iff := by
    intro x c hc hinner
    obtain ⟨hm, ⟨rfl, h⟩ | ⟨rfl, h⟩⟩ := init_nodes anyKey numProcesses x c hc
    · rw [h] at hinner
      cases hinner
    · simp [hm, Heap.Member, RangeGraph.Member, Relation.ReflTransGen.refl]
  leaf_unmarked := fun x c hc _ => (init_nodes anyKey numProcesses x c hc).1

end Pacer.Abtree
