import Pacer.Abtree.Change
import Pacer.Lib.Linearizable

set_option autoImplicit false

/-! # The dictionary in the tree

The search for a key in the tree as it is ends at one leaf (`Labelled.exists_leaf`), and what the
tree holds for the key is what this leaf holds (`Labelled.content_eq`). So an SCX changes the
dictionary as the new leaves differ from the removed ones, and nowhere else (`Fits.content_rem`,
`Fits.content_kept`).
-/

namespace Pacer.Abtree

open RangeGraph Relation

variable {K : Type} [LinearOrder K]

/-- `n` is the leaf at `x`, and the search for `key` from `u` comes to it. -/
structure EndsAt (h : Heap K) (key : K) (u x : Nat) (n : Node K) : Prop where
  reaches : h.graph.Reaches key u x
  node : h.node x = some n
  leaf : n.leaf = true

theorem EndsAt.kids {h : Heap K} {key : K} {u x : Nat} {n : Node K} (E : EndsAt h key u x n) :
    h.graph.kids x = [] := by
  rw [Heap.graph_kids E.node, Node.kids_leaf E.leaf]

theorem EndsAt.unique {h : Heap K} {key : K} {u x y : Nat} {n m : Node K}
    (E : EndsAt h key u x n) (E' : EndsAt h key u y m) : x = y ∧ n = m := by
  obtain rfl := E.reaches.leaf_unique E'.reaches E.kids E'.kids
  exact ⟨rfl, Option.some.inj (E.node.symm.trans E'.node)⟩

theorem Heap.graph_next {h : Heap K} {x : Nat} {n : Node K} (hx : h.node x = some n)
    (hinner : n.leaf = false) (key : K) :
    (h.graph.kids x)[h.graph.dir key x]? = n.ptrs[n.getChildIndex key]? := by
  rw [Heap.graph_kids hx, Heap.graph_dir hx, Node.kids_inner hinner]

namespace Labelled

variable {b : Nat} {h : Heap K} {lab : Labels K}

/-- The search of the source, with enough fuel, is the search in the graph. -/
theorem leafOf_eq (L : Labelled b h lab) (key : K) (fuel : Nat) {u : Nat} (hu : u < h.length)
    {x : Nat} {n : Node K} (hx : h.graph.follow key fuel u = x) (hn : h.node x = some n)
    (hleaf : n.leaf = true) : h.leafOf key (fuel + 1) u = some n := by
  induction fuel generalizing u with
  | zero =>
      obtain rfl : u = x := hx
      simp [Heap.leafOf, hn, Node.isLeaf, hleaf]
  | succ fuel ih =>
      obtain ⟨m, hm⟩ := Heap.exists_node hu
      rw [Heap.leafOf, hm]
      cases hml : m.leaf with
      | true =>
          rw [RangeGraph.follow, Heap.graph_kids hm, Node.kids_leaf hml] at hx
          obtain rfl : u = x := hx
          rw [hm] at hn
          cases hn
          simp [Node.isLeaf, hleaf]
      | false =>
          obtain ⟨c, hc⟩ := L.exists_next hm hml key
          rw [Heap.child_eq_some] at hc
          have hnext := Heap.graph_next hm hml key
          rw [Heap.graph_dir hm] at hnext
          rw [RangeGraph.follow, Heap.graph_dir hm, hc] at hx
          rw [hc] at hnext
          simp only [Node.isLeaf, hml, Bool.false_eq_true, if_false, ← hnext, Option.bind_some]
          exact ih (L.kid_lt (List.mem_of_getElem? hc)) hx

/-- **Every search ends at a leaf** when nothing else happens. -/
theorem exists_leaf (L : Labelled b h lab) (key : K) {u : Nat} (hu : u < h.length) :
    ∃ x n, EndsAt h key u x n ∧ h.graph.follow key (h.length - 1) u = x := by
  have hdom : ∀ y, y < h.length → y ∈ Finset.range h.length := fun y hy => Finset.mem_range.mpr hy
  have hends := L.ranged.follow_ends hdom key hu (n := h.length - 1)
    (by rw [Finset.card_range]; omega)
  have hreach := h.graph.reaches_follow key (h.length - 1) u
  generalize hx : h.graph.follow key (h.length - 1) u = x at hends hreach
  obtain ⟨n, hn⟩ := Heap.exists_node (L.ranged.reaches_pub hreach hu)
  refine ⟨x, n, ⟨hreach, hn, ?_⟩, rfl⟩
  cases hl : n.leaf with
  | true => rfl
  | false =>
      obtain ⟨c, hc⟩ := L.exists_next hn hl key
      rw [Heap.child_eq_some] at hc
      rw [Heap.graph_dir hn, hc] at hends
      cases hends

/-- **What the tree holds for a key** is what the leaf holds that the search for it ends at. -/
theorem content_eq (L : Labelled b h lab) {key : K} {x : Nat} {n : Node K}
    (E : EndsAt h key entry x n) : h.content key = n.value key := by
  have hentry : entry < h.length := L.ranged.root_pub
  obtain ⟨y, m, E', hfollow⟩ := L.exists_leaf key hentry
  obtain ⟨rfl, rfl⟩ := E.unique E'
  have hfuel : h.length = h.length - 1 + 1 := by omega
  rw [Heap.content, hfuel, L.leafOf_eq key _ hentry hfollow E.node E.leaf]
  rfl

/-- A leaf in the tree is the end of the searches for the keys that it answers for. -/
theorem endsAt_of_member (L : Labelled b h lab) {key : K} {x : Nat} {n : Node K}
    (hx : h.node x = some n) (hleaf : n.leaf = true) (hm : h.Member x)
    (hk : key ∈ (lab x).range) : EndsAt h key entry x n :=
  ⟨L.ranged.reaches_of_member hm hk, hx, hleaf⟩

/-- The search for any key from the entry. -/
theorem exists_entry_leaf (L : Labelled b h lab) (key : K) :
    ∃ x n, EndsAt h key entry x n ∧ h.Member x ∧ key ∈ (lab x).range := by
  obtain ⟨x, n, E, -⟩ := L.exists_leaf key L.ranged.root_pub
  refine ⟨x, n, E, E.reaches.kids, L.ranged.mem_of_reaches L.ranged.root_pub ?_ E.reaches⟩
  rw [L.entry_range]
  exact Set.mem_univ key

end Labelled

namespace Fits

variable {b : Nat} {h : Heap K} {lab : Labels K} {V R : List Nat} {g ix old top : Nat}
  {news : List (Node K)} {rem : List Nat} {labs : List (Label K)}

/-- **The dictionary at a key of a removed leaf.** -/
theorem content_rem (F : Fits b h lab V R g ix old top news rem labs) (L : Labelled b h lab)
    {f : K → Option Nat → Option Nat} (hval : Values h lab news rem labs f) {k : K} {e : Nat}
    {en : Node K} (he : e ∈ rem) (hen : h.node e = some en) (hleaf : en.leaf = true)
    (hk : k ∈ (lab e).range) :
    (h.change V R g ix (h.length + top) news).content k = f k (h.content k) := by
  have L' := F.labelled L
  have hmem : h.Member e := by
    have hold := F.member.tail (List.mem_of_getElem? (Heap.child_eq_some.mp F.old_kid))
    rcases F.rem_kid e he with rfl | hkid
    · exact hold
    · exact hold.tail hkid
  have E := L.endsAt_of_member hen hleaf hmem hk
  obtain ⟨y, m, E', hm', hk'⟩ := L'.exists_entry_leaf k
  rw [L'.content_eq E', L.content_eq E]
  rcases (F.member_iff L y).mp hm' with ⟨hm, hrem⟩ | hadd
  · -- a leaf that was there before would be a second end of the search
    have hlt := L.ranged.member_pub hm
    obtain ⟨n, hn⟩ := Heap.exists_node hlt
    obtain ⟨ptrs, hn', -⟩ := (F.grows L).node y n hn
    have hnl : n.leaf = true := by
      have := E'.leaf
      rw [← Option.some.inj (hn'.symm.trans E'.node)] at this
      exact this
    rw [Labels.extend_old hlt] at hk'
    obtain ⟨rfl, -⟩ := E.unique (L.endsAt_of_member hn hnl hm hk')
    exact absurd he hrem
  · obtain ⟨j, rfl, hj⟩ := mem_added.mp hadd
    have hnews : news[j]? = some m := by
      rw [← E'.node, Heap.change_node_new]
    rw [← F.labs_length] at hj
    have hlabs : labs[j]? = some labs[j] := List.getElem?_eq_getElem hj
    rw [Labels.extend_new hlabs] at hk'
    exact hval k e en he hen hleaf hk j m _ hnews E'.leaf hlabs hk'

/-- The dictionary at a key of a leaf that stays. -/
theorem content_kept (F : Fits b h lab V R g ix old top news rem labs) (L : Labelled b h lab)
    {k : K} {x : Nat} {n : Node K} (E : EndsAt h k entry x n) (hx : x ∉ rem) :
    (h.change V R g ix (h.length + top) news).content k = h.content k := by
  have L' := F.labelled L
  have hmem : h.Member x := E.reaches.kids
  have hlt := L.ranged.member_pub hmem
  obtain ⟨ptrs, hn', hptrs⟩ := (F.grows L).node x n E.node
  rw [hptrs E.leaf] at hn'
  have hmem' := (F.member_iff L x).mpr (Or.inl ⟨hmem, hx⟩)
  have hk : k ∈ (lab x).range := by
    refine L.ranged.mem_of_reaches L.ranged.root_pub ?_ E.reaches
    rw [L.entry_range]
    exact Set.mem_univ k
  have E' := L'.endsAt_of_member hn' E.leaf hmem' (by rwa [Labels.extend_old hlt])
  rw [L'.content_eq E', L.content_eq E]

/-- **A rebalancing step does not touch the dictionary.** -/
theorem content_eq (F : Fits b h lab V R g ix old top news rem labs) (L : Labelled b h lab)
    (hval : Values h lab news rem labs fun _ v => v) :
    (h.change V R g ix (h.length + top) news).content = h.content := by
  funext k
  obtain ⟨x, n, E, -, hk⟩ := L.exists_entry_leaf k
  by_cases hx : x ∈ rem
  · exact F.content_rem L hval hx E.node E.leaf hk
  · exact F.content_kept L E hx

/-- **An update of one leaf changes the dictionary at its key.** -/
theorem content_update {x : Nat} (F : Fits b h lab V R g ix x top news [x] labs)
    (L : Labelled b h lab) {n : Node K} (hx : h.node x = some n) (hleaf : n.leaf = true)
    {key : K} (hkey : key ∈ (lab x).range) {v : Option Nat}
    (hval : Values h lab news [x] labs fun k u => if k = key then v else u) :
    (h.change V R g ix (h.length + top) news).content = Function.update h.content key v := by
  funext k
  obtain ⟨y, m, E, -, hk⟩ := L.exists_entry_leaf k
  by_cases hy : y = x
  · subst hy
    rw [F.content_rem L hval (List.mem_singleton_self y) E.node E.leaf hk, Function.update_apply]
  · have hmem := F.member.tail (List.mem_of_getElem? (Heap.child_eq_some.mp F.old_kid))
    have hne : k ≠ key := by
      rintro rfl
      exact hy (E.unique (L.endsAt_of_member hx hleaf hmem hkey)).1
    rw [F.content_kept L E (by simpa using hy), Function.update_of_ne hne]

end Fits

/-! ## The dictionary as an object -/

/-- The dictionary, operation by operation. -/
def dictionary (K : Type) [LinearOrder K] : Object (K → Option Nat) (Op K) Result where
  init := fun _ => none
  apply := fun m op =>
    match op with
    | .find key =>
        match m key with
        | some v => (m, .pair v true)
        | none => (m, .pair noValue false)
    | .insert key value replace =>
        match m key with
        | some v => (if replace then Function.update m key (some value) else m, .value v)
        | none => (Function.update m key (some value), .value noValue)
    | .erase key =>
        match m key with
        | some v => (Function.update m key none, .pair v true)
        | none => (m, .pair noValue false)

end Pacer.Abtree
