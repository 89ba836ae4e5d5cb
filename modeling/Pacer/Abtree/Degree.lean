import Pacer.Abtree.Leaves

set_option autoImplicit false

/-! # Absorb sibling and distribute

A node with too few pointers is removed together with its parent `p` and a sibling. The contents
of the two siblings `c` and `d`, which stand next to each other under `p`, are put side by side,
and the separator between them goes along if they are internal (`DegreeSite.joined`). This is a
`Part` of the range of `p`: the hole that the two leave in `p`. It goes into one new node
(`absorbSibling_fits`, `absorbRoot_fits`), or is cut into two even ones (`distribute_fits`).
-/

namespace Pacer.Abtree

open Separators RangeGraph

variable {K : Type} [LinearOrder K]

/-- The place of a degree violation: the neighbours `c` and `d` under `p` under `g`, all of weight
one. -/
structure DegreeSite (b : Nat) (h : Heap K) (lab : Labels K) (g ix p i c d : Nat)
    (pn cn dn : Node K) : Prop where
  labelled : Labelled b h lab
  g_member : h.Member g
  p_child : h.child g ix = some p
  c_child : h.child p i = some c
  d_child : h.child p (i + 1) = some d
  p_node : h.node p = some pn
  c_node : h.node c = some cn
  d_node : h.node d = some dn
  p_weight : pn.weight = true
  c_weight : cn.weight = true
  d_weight : dn.weight = true

/-- Content for a node with the range `S`, in a leaf or in an internal node with children below
`c` or `d`. -/
structure Part (h : Heap K) (lab : Labels K) (c d : Nat) (leaf : Bool) (S : Set K)
    (keys : List K) (ptrs : List Nat) (size : Nat) : Prop where
  ptrs_length : ptrs.length = size
  keys_length : keys.length = if leaf then size else size - 1
  keys_mem : ∀ k ∈ keys, k ∈ S
  sorted : leaf = true → keys.Pairwise (· < ·)
  pos : leaf = false → 1 ≤ size
  tiles : leaf = false → Tiles S keys (ptrs.map fun e => (lab e).range)
  kids : leaf = false → ∀ e ∈ ptrs, e ∈ h.graph.kids c ∨ e ∈ h.graph.kids d

theorem Part.node_ok {b : Nat} {h : Heap K} {lab : Labels K} {c d : Nat} {leaf : Bool}
    {S : Set K} {keys : List K} {ptrs : List Nat} {size : Nat}
    (P : Part h lab c d leaf S keys ptrs size) (hb : size ≤ b) (key : K) :
    NodeOk b (⟨leaf, true, size, key, keys, ptrs⟩ : Node K) where
  ptrs_length := P.ptrs_length
  keys_length := P.keys_length
  size_le := hb
  leaf_weight := fun _ => rfl
  leaf_sorted := P.sorted
  inner_size := P.pos
  zero_size := fun hw => Bool.noConfusion hw

theorem arraycopy_drop {α : Type*} {src : List α} {start len : Nat}
    (h : src.length = start + len) : arraycopy src start len = src.drop start := by
  rw [arraycopy, List.take_of_length_le (by rw [List.length_drop]; omega)]

/-- **A part is cut in two even ones** by the key `mid`, which stays in the right half of a leaf
and goes to the parent otherwise. -/
theorem Part.halves {h : Heap K} {lab : Labels K} {c d : Nat} {leaf : Bool} {S : Set K}
    {keys : List K} {ptrs : List Nat} {size : Nat}
    (P : Part h lab c d leaf S keys ptrs size) (h4 : 4 ≤ size) {inner : Nat}
    (hinner : inner = if leaf then 0 else 1) :
    ∃ first mid second, keys[0]? = some first ∧ keys[size / 2 - inner]? = some mid
      ∧ keys[size / 2]? = some second ∧ mid ∈ S ∧ first ∈ S ∩ Set.Iio mid
      ∧ second ∈ S ∩ Set.Ici mid
      ∧ Part h lab c d leaf (S ∩ Set.Iio mid) (keys.take (size / 2 - inner))
          (ptrs.take (size / 2)) (size / 2)
      ∧ Part h lab c d leaf (S ∩ Set.Ici mid) (keys.drop (size / 2)) (ptrs.drop (size / 2))
          (size - size / 2)
      ∧ (leaf = true → ∀ k,
          (k < mid → lookup (keys.take (size / 2)) (ptrs.take (size / 2)) k = lookup keys ptrs k)
          ∧ (mid ≤ k →
            lookup (keys.drop (size / 2)) (ptrs.drop (size / 2)) k = lookup keys ptrs k)) := by
  have hptrs := P.ptrs_length
  have hkeys := P.keys_length
  have htakep : (ptrs.take (size / 2)).length = size / 2 := by
    rw [List.length_take]
    omega
  have hdropp : (ptrs.drop (size / 2)).length = size - size / 2 := by
    rw [List.length_drop]
    omega
  cases leaf with
  | true =>
      simp only [if_true] at hkeys hinner
      subst hinner
      have hs := P.sorted rfl
      have hcut := List.take_append_drop (size / 2) keys
      have hpcut := List.take_append_drop (size / 2) ptrs
      have hs' := hs
      rw [← hcut] at hs'
      obtain ⟨hslo, hshi, hlohi⟩ := List.pairwise_append.mp hs'
      have hdrop : keys.drop (size / 2) = keys[size / 2] :: keys.drop (size / 2 + 1) :=
        List.drop_eq_getElem_cons (by omega)
      have hlo : ∀ k ∈ keys.take (size / 2), k < keys[size / 2] := fun k hk =>
        hlohi k hk _ (by rw [hdrop]; exact List.mem_cons_self)
      have hhi : ∀ k ∈ keys.drop (size / 2), keys[size / 2] ≤ k := by
        intro k hk
        rw [hdrop] at hk hshi
        rcases List.mem_cons.mp hk with rfl | hk
        · exact le_refl _
        · exact le_of_lt ((List.pairwise_cons.mp hshi).1 k hk)
      have hfirst : keys[0] ∈ keys.take (size / 2) :=
        List.mem_take_iff_getElem.mpr ⟨0, by omega, rfl⟩
      have htake : (keys.take (size / 2)).length = size / 2 := by
        rw [List.length_take]
        omega
      refine ⟨keys[0], keys[size / 2], keys[size / 2], List.getElem?_eq_getElem _,
        List.getElem?_eq_getElem _, List.getElem?_eq_getElem _, P.keys_mem _ (List.getElem_mem _),
        ⟨P.keys_mem _ (List.getElem_mem _), hlo _ hfirst⟩,
        ⟨P.keys_mem _ (List.getElem_mem _), le_refl _⟩, ?_, ?_, fun _ k => ⟨fun hk => ?_, ?_⟩⟩
      · exact
          { ptrs_length := htakep
            keys_length := htake
            keys_mem := fun k hk => ⟨P.keys_mem k (List.mem_of_mem_take hk), hlo k hk⟩
            sorted := fun _ => hslo
            pos := fun hl => Bool.noConfusion hl
            tiles := fun hl => Bool.noConfusion hl
            kids := fun hl => Bool.noConfusion hl }
      · exact
          { ptrs_length := hdropp
            keys_length := by rw [List.length_drop, hkeys]; rfl
            keys_mem := fun k hk => ⟨P.keys_mem k (List.mem_of_mem_drop hk), hhi k hk⟩
            sorted := fun _ => hshi
            pos := fun hl => Bool.noConfusion hl
            tiles := fun hl => Bool.noConfusion hl
            kids := fun hl => Bool.noConfusion hl }
      · have := lookup_append_left (V := ptrs.take (size / 2)) (W := ptrs.drop (size / 2)) hs'
          (htakep.trans htake.symm) (k := k) fun hkd => absurd (hhi k hkd) (not_le.mpr hk)
        rw [hcut, hpcut] at this
        exact this.symm
      · intro hk
        have := lookup_append_right (V := ptrs.take (size / 2)) (W := ptrs.drop (size / 2)) hs'
          (htakep.trans htake.symm) (k := k) fun hkt => absurd (hlo k hkt) (not_lt.mpr hk)
        rw [hcut, hpcut] at this
        exact this.symm
  | false =>
      simp only [Bool.false_eq_true, if_false] at hkeys hinner
      subst hinner
      obtain ⟨first, mid, second, hfirst, hmid, hsecond, hmidS, hfirstS, hsecondS, hleft,
        hright⟩ := (P.tiles rfl).halves (show 2 ≤ size / 2 by omega)
          (show size / 2 + 2 ≤ _ by rw [List.length_map]; omega)
      rw [← List.map_take] at hleft
      rw [← List.map_drop] at hright
      refine ⟨first, mid, second, hfirst, hmid, hsecond, hmidS, hfirstS, hsecondS, ?_, ?_,
        fun hl => Bool.noConfusion hl⟩
      · exact
          { ptrs_length := htakep
            keys_length := by
              rw [List.length_take, if_neg (by simp)]
              omega
            keys_mem := fun k hk => hleft.mem_keys hk
            sorted := fun hl => Bool.noConfusion hl
            pos := fun _ => by omega
            tiles := fun _ => hleft
            kids := fun _ e he => P.kids rfl e (List.mem_of_mem_take he) }
      · exact
          { ptrs_length := hdropp
            keys_length := by
              rw [List.length_drop, if_neg (by simp)]
              omega
            keys_mem := fun k hk => hright.mem_keys hk
            sorted := fun hl => Bool.noConfusion hl
            pos := fun _ => by omega
            tiles := fun _ => hright
            kids := fun _ e he => P.kids rfl e (List.mem_of_mem_drop he) }

namespace DegreeSite

variable {b : Nat} {h : Heap K} {lab : Labels K} {g ix p i c d : Nat} {pn cn dn : Node K}

theorem p_kid (S : DegreeSite b h lab g ix p i c d pn cn dn) : p ∈ h.graph.kids g :=
  List.mem_of_getElem? (Heap.child_eq_some.mp S.p_child)

theorem c_kid (S : DegreeSite b h lab g ix p i c d pn cn dn) : c ∈ h.graph.kids p :=
  List.mem_of_getElem? (Heap.child_eq_some.mp S.c_child)

theorem d_kid (S : DegreeSite b h lab g ix p i c d pn cn dn) : d ∈ h.graph.kids p :=
  List.mem_of_getElem? (Heap.child_eq_some.mp S.d_child)

theorem p_member (S : DegreeSite b h lab g ix p i c d pn cn dn) : h.Member p :=
  S.g_member.tail S.p_kid

theorem p_ne_entry (S : DegreeSite b h lab g ix p i c d pn cn dn) : p ≠ entry :=
  S.labelled.kid_ne_entry S.g_member S.p_kid

theorem p_inner (S : DegreeSite b h lab g ix p i c d pn cn dn) : pn.leaf = false := by
  have := S.c_kid
  rw [Heap.graph_kids S.p_node] at this
  exact Node.inner_of_kid this

/-- Below a node all of whose children weigh one the levels are one less. -/
theorem kid_level (S : DegreeSite b h lab g ix p i c d pn cn dn) :
    (lab c).level + 1 = (lab p).level ∧ (lab d).level + 1 = (lab p).level := by
  have hlevel := (S.labelled.node_at p pn S.p_node).kid_level S.p_ne_entry
  have hc := S.c_kid
  have hd := S.d_kid
  rw [Heap.graph_kids S.p_node] at hc hd
  have hcl := hlevel c hc
  have hdl := hlevel d hd
  rw [Heap.weight_eq S.c_node, if_pos S.c_weight] at hcl
  rw [Heap.weight_eq S.d_node, if_pos S.d_weight] at hdl
  exact ⟨hcl, hdl⟩

/-- **The siblings are both leaves or both internal.** -/
theorem leaf_eq (S : DegreeSite b h lab g ix p i c d pn cn dn) : dn.leaf = cn.leaf := by
  obtain ⟨hc, hd⟩ := S.kid_level
  have hc0 := S.labelled.level_eq_zero_iff S.c_node
  have hd0 := S.labelled.level_eq_zero_iff S.d_node
  have : (lab d).level = (lab c).level := by omega
  rw [Bool.eq_iff_iff, ← hc0, ← hd0, this]

/-- The children of the siblings lie above both, on the level below theirs. -/
theorem kids_spec (S : DegreeSite b h lab g ix p i c d pn cn dn) {e : Nat}
    (he : e ∈ h.graph.kids c ∨ e ∈ h.graph.kids d) :
    e < h.length ∧ min (lab c).pos (lab d).pos < (lab e).pos
      ∧ (lab e).level + h.weight e = (lab c).level := by
  obtain ⟨hcl, hdl⟩ := S.kid_level
  rcases he with he | he
  · refine ⟨S.labelled.kid_lt he, lt_of_le_of_lt (min_le_left _ _) (S.labelled.kid_pos he), ?_⟩
    rw [Heap.graph_kids S.c_node] at he
    exact (S.labelled.node_at c cn S.c_node).kid_level
      (S.labelled.kid_ne_entry S.p_member S.c_kid) e he
  · refine ⟨S.labelled.kid_lt he, lt_of_le_of_lt (min_le_right _ _) (S.labelled.kid_pos he), ?_⟩
    rw [Heap.graph_kids S.d_node] at he
    have := (S.labelled.node_at d dn S.d_node).kid_level
      (S.labelled.kid_ne_entry S.p_member S.d_kid) e he
    omega

/-- The parent cut at the siblings and the separator between them. -/
theorem parent_cut (S : DegreeSite b h lab g ix p i c d pn cn dn) :
    ∃ A x B P Q, pn.keys = A ++ x :: B ∧ pn.ptrs = P ++ c :: d :: Q ∧ A.length = i
      ∧ P.length = i ∧ Q.length = B.length := by
  obtain ⟨A, B, P, Q, hk, hp, hA, hP, hQ, -⟩ := S.labelled.inner_cut S.p_node S.c_child
  have hd := S.d_child
  rw [Heap.child_eq_some, Heap.graph_kids S.p_node, Node.kids_inner S.p_inner, hp,
    List.getElem?_append_right (by omega), hP] at hd
  cases Q with
  | nil => simp at hd
  | cons d' Q =>
      obtain rfl : d' = d := by simpa using hd
      cases B with
      | nil => simp at hQ
      | cons x B => exact ⟨A, x, B, P, Q, hk, hp, hA, hP, by simpa using hQ⟩

/-- **The joined contents of the siblings**: they fill the hole `H` that the siblings leave in
`p`, and in leaves they hold what the siblings hold. -/
theorem joined (S : DegreeSite b h lab g ix p i c d pn cn dn) :
    ∃ A x B P Q H J, pn.keys = A ++ x :: B ∧ pn.ptrs = P ++ c :: d :: Q
      ∧ A.length = i ∧ P.length = i ∧ Q.length = B.length
      ∧ Tiles (lab p).range (A ++ B)
          (P.map (fun e => (lab e).range) ++ H :: Q.map fun e => (lab e).range)
      ∧ (lab c).range ⊆ H ∧ (lab d).range ⊆ H
      ∧ joinedKeys pn cn dn i = some J
      ∧ Part h lab c d cn.leaf H J (joinedPtrs cn dn) (cn.size + dn.size)
      ∧ (cn.leaf = true → ∀ k, (k ∈ (lab c).range → lookup J (joinedPtrs cn dn) k = cn.value k)
          ∧ (k ∈ (lab d).range → lookup J (joinedPtrs cn dn) k = dn.value k)) := by
  have hcok := S.labelled.node_ok c cn S.c_node
  have hdok := S.labelled.node_ok d dn S.d_node
  have hcat := S.labelled.node_at c cn S.c_node
  have hdat := S.labelled.node_at d dn S.d_node
  obtain ⟨A, x, B, P, Q, hk, hp, hA, hP, hQ⟩ := S.parent_cut
  have htiles := (S.labelled.node_at p pn S.p_node).tiles S.p_inner
  have hsplit : Tiles (lab p).range (A ++ [x] ++ B)
      (P.map (fun e => (lab e).range) ++ [(lab c).range, (lab d).range]
        ++ Q.map fun e => (lab e).range) := by
    rw [hk, hp] at htiles
    simpa using htiles
  obtain ⟨H, hhole, hpair⟩ := hsplit.hole (by rw [List.length_map, hP, hA]) rfl
  obtain ⟨hxH, -, hc, hd⟩ := tiles_pair.mp hpair
  have hptrs : joinedPtrs cn dn = cn.ptrs ++ dn.ptrs := by
    rw [joinedPtrs, Node.getABDegree, Node.getABDegree, arraycopy_all hcok.ptrs_length,
      arraycopy_all hdok.ptrs_length]
  have hplen : (cn.ptrs ++ dn.ptrs).length = cn.size + dn.size := by
    rw [List.length_append, hcok.ptrs_length, hdok.ptrs_length]
  have hcH : (lab c).range ⊆ H := hc ▸ Set.inter_subset_left
  have hdH : (lab d).range ⊆ H := hd ▸ Set.inter_subset_left
  have hckey : ∀ k ∈ cn.keys, k ∈ H ∧ k < x := fun k hk => by
    have := hcat.keys_mem k hk
    rwa [hc] at this
  have hdkey : ∀ k ∈ dn.keys, k ∈ H ∧ x ≤ k := fun k hk => by
    have := hdat.keys_mem k hk
    rwa [hd] at this
  rw [hptrs]
  refine ⟨A, x, B, P, Q, H, ?_⟩
  cases hleaf : cn.leaf with
  | true =>
      have hdleaf := S.leaf_eq.trans hleaf
      have hs : (cn.keys ++ dn.keys).Pairwise (· < ·) :=
        List.pairwise_append.mpr ⟨hcok.leaf_sorted hleaf, hdok.leaf_sorted hdleaf,
          fun k hk k' hk' => lt_of_lt_of_le (hckey k hk).2 (hdkey k' hk').2⟩
      have hlen : cn.ptrs.length = cn.keys.length := by
        rw [hcok.ptrs_length, hcok.leaf_keys_length hleaf]
      refine ⟨cn.keys ++ dn.keys, hk, hp, hA, hP, hQ, hhole, hcH, hdH, ?_, ?_, fun _ k => ?_⟩
      · simp [joinedKeys, Node.isLeaf, hleaf, arraycopy_all hcok.keys_length,
          arraycopy_all hdok.keys_length]
      · refine
          { ptrs_length := hplen
            keys_length := ?_
            keys_mem := ?_
            sorted := fun _ => hs
            pos := fun hl => Bool.noConfusion hl
            tiles := fun hl => Bool.noConfusion hl
            kids := fun hl => Bool.noConfusion hl }
        · rw [List.length_append, hcok.leaf_keys_length hleaf, hdok.leaf_keys_length hdleaf,
            if_pos rfl]
        · intro k hk
          rcases List.mem_append.mp hk with hk | hk
          · exact (hckey k hk).1
          · exact (hdkey k hk).1
      · rw [hcok.value_eq hleaf, hdok.value_eq hdleaf, hc, hd]
        constructor
        · rintro ⟨-, hkx⟩
          exact lookup_append_left hs hlen fun hmem => absurd (hdkey k hmem).2 (not_le.mpr hkx)
        · rintro ⟨-, hkx⟩
          exact lookup_append_right hs hlen fun hmem => absurd (hckey k hmem).2 (not_lt.mpr hkx)
  | false =>
      have hdleaf := S.leaf_eq.trans hleaf
      have hxkey : pn.keys[i]? = some x := by
        rw [hk, ← hA]
        simp
      have hctiles := hcat.tiles hleaf
      have hdtiles := hdat.tiles hdleaf
      have htileJ : Tiles H (cn.keys ++ x :: dn.keys)
          ((cn.ptrs ++ dn.ptrs).map fun e => (lab e).range) := by
        rw [List.map_append, tiles_cut hctiles.length_eq, ← hc, ← hd]
        refine ⟨hxH, ?_, hctiles, hdtiles⟩
        exact S.labelled.ranged.nonempty c (Heap.node_lt S.c_node)
      refine ⟨cn.keys ++ x :: dn.keys, hk, hp, hA, hP, hQ, hhole, hcH, hdH, ?_, ?_,
        fun hl => Bool.noConfusion hl⟩
      · simp [joinedKeys, Node.isLeaf, hleaf, hxkey, arraycopy_all hcok.keys_length,
          arraycopy_all hdok.keys_length]
      · have hlen := htileJ.length_eq
        rw [List.length_map, hplen] at hlen
        refine
          { ptrs_length := hplen
            keys_length := ?_
            keys_mem := fun k hk => htileJ.mem_keys hk
            sorted := fun hl => Bool.noConfusion hl
            pos := fun _ => by omega
            tiles := fun _ => htileJ
            kids := fun _ e he => ?_ }
        · rw [if_neg (by simp)]
          omega
        · rw [Heap.graph_kids S.c_node, Heap.graph_kids S.d_node, Node.kids_inner hleaf,
            Node.kids_inner hdleaf]
          exact List.mem_append.mp he

/-! ## The change of the tree -/

/-- The removed nodes, and those of them that the SCX finalizes: leaves are not frozen. -/
structure Removed (p c d : Nat) (leaf : Bool) (rem R : List Nat) : Prop where
  rem_iff : ∀ y, y ∈ rem ↔ y = p ∨ y = c ∨ y = d
  final_iff : ∀ y, y ∈ R ↔ y = p ∨ (leaf = false ∧ (y = c ∨ y = d))

theorem finalized (S : DegreeSite b h lab g ix p i c d pn cn dn) {rem R : List Nat}
    (hrem : Removed p c d cn.leaf rem R) :
    ∀ y n, h.node y = some n → (y ∈ R ↔ y ∈ rem ∧ n.leaf = false) := by
  intro y n hy
  rw [hrem.rem_iff, hrem.final_iff]
  have hpn : y = p → n.leaf = false := by
    rintro rfl
    obtain rfl := Option.some.inj (S.p_node.symm.trans hy)
    exact S.p_inner
  have hcn : y = c → n.leaf = cn.leaf := by
    rintro rfl
    rw [Option.some.inj (S.c_node.symm.trans hy)]
  have hdn : y = d → n.leaf = cn.leaf := by
    rintro rfl
    rw [← Option.some.inj (S.d_node.symm.trans hy), S.leaf_eq]
  constructor
  · rintro (hyp | ⟨hleaf, hycd⟩)
    · exact ⟨Or.inl hyp, hpn hyp⟩
    · exact ⟨Or.inr hycd, hycd.elim (fun e => (hcn e).trans hleaf) fun e => (hdn e).trans hleaf⟩
  · rintro ⟨hyp | hyc | hyd, hleaf⟩
    · exact Or.inl hyp
    · exact Or.inr ⟨(hcn hyc).symm.trans hleaf, Or.inl hyc⟩
    · exact Or.inr ⟨(hdn hyd).symm.trans hleaf, Or.inr hyd⟩

theorem rem_kid (S : DegreeSite b h lab g ix p i c d pn cn dn) {rem R : List Nat}
    (hrem : Removed p c d cn.leaf rem R) : ∀ r ∈ rem, r = p ∨ r ∈ h.graph.kids p := by
  intro r hr
  rcases (hrem.rem_iff r).mp hr with rfl | rfl | rfl
  · exact Or.inl rfl
  · exact Or.inr S.c_kid
  · exact Or.inr S.d_kid

/-- **The children that lead out of the removed nodes**: those of `p` but the siblings, and those
of the siblings. -/
theorem exits (S : DegreeSite b h lab g ix p i c d pn cn dn) {rem R P Q : List Nat}
    (hrem : Removed p c d cn.leaf rem R) (hp : pn.ptrs = P ++ c :: d :: Q) (e : Nat) :
    ((∃ q ∈ rem, e ∈ h.graph.kids q) ∧ e ∉ rem)
      ↔ (e ∈ P ∨ e ∈ Q) ∨ e ∈ h.graph.kids c ∨ e ∈ h.graph.kids d := by
  have hkp : h.graph.kids p = P ++ c :: d :: Q := by
    rw [Heap.graph_kids S.p_node, Node.kids_inner S.p_inner, hp]
  have hnodup := S.labelled.kids_nodup S.p_member
  rw [hkp] at hnodup
  obtain ⟨-, hnd, hdisj⟩ := List.nodup_append.mp hnodup
  obtain ⟨hcdQ, hnd⟩ := List.nodup_cons.mp hnd
  have hdQ := (List.nodup_cons.mp hnd).1
  have hcP : c ∉ P := fun hmem => hdisj c hmem c (by simp) rfl
  have hdP : d ∉ P := fun hmem => hdisj d hmem d (by simp) rfl
  have hpp : p ∉ h.graph.kids p := fun hc => lt_irrefl _ (S.labelled.kid_pos hc)
  -- a child of a sibling is none of the three, for these have other parents
  have hlow : ∀ q, (q = c ∨ q = d) → e ∈ h.graph.kids q → e ∉ rem := by
    intro q hq he hmem
    have hqk : q ∈ h.graph.kids p := by
      rcases hq with rfl | rfl
      · exact S.c_kid
      · exact S.d_kid
    have hqm : h.Member q := S.p_member.tail hqk
    have hpq : p ≠ q := by
      rintro rfl
      exact hpp hqk
    rcases (hrem.rem_iff e).mp hmem with rfl | rfl | rfl
    · exact lt_asymm (S.labelled.kid_pos he) (S.labelled.kid_pos hqk)
    · exact hpq (S.labelled.parent_eq S.p_member hqm S.c_kid he)
    · exact hpq (S.labelled.parent_eq S.p_member hqm S.d_kid he)
  constructor
  · rintro ⟨⟨q, hq, he⟩, hnot⟩
    rw [hrem.rem_iff] at hnot
    rcases (hrem.rem_iff q).mp hq with rfl | rfl | rfl
    · rw [hkp] at he
      simp only [List.mem_append, List.mem_cons] at he
      tauto
    · exact Or.inr (Or.inl he)
    · exact Or.inr (Or.inr he)
  · rintro (he | he | he)
    · have hekp : e ∈ h.graph.kids p := by
        rw [hkp]
        simp only [List.mem_append, List.mem_cons]
        tauto
      refine ⟨⟨p, (hrem.rem_iff p).mpr (Or.inl rfl), hekp⟩, ?_⟩
      rw [hrem.rem_iff]
      rintro (rfl | rfl | rfl)
      · exact hpp hekp
      · rcases he with he | he
        · exact hcP he
        · exact hcdQ (List.mem_cons_of_mem d he)
      · rcases he with he | he
        · exact hdP he
        · exact hdQ he
    · exact ⟨⟨c, (hrem.rem_iff c).mpr (Or.inr (Or.inl rfl)), he⟩, hlow c (Or.inl rfl) he⟩
    · exact ⟨⟨d, (hrem.rem_iff d).mpr (Or.inr (Or.inr rfl)), he⟩, hlow d (Or.inr rfl) he⟩

/-- A new node with a part of the joined contents. -/
theorem part_at (S : DegreeSite b h lab g ix p i c d pn cn dn) {T : Set K} {keys : List K}
    {ptrs : List Nat} {size x new : Nat} {key : K} {V R : List Nat} {news : List (Node K)}
    {labs : List (Label K)} (P : Part h lab c d cn.leaf T keys ptrs size) (hkey : key ∈ T)
    (hlab : lab.extend h labs x = ⟨T, (lab c).level, min (lab c).pos (lab d).pos⟩) :
    NodeAt (h.change V R g ix new news) (lab.extend h labs) x
      ⟨cn.leaf, true, size, key, keys, ptrs⟩ := by
  have hat := S.labelled.node_at c cn S.c_node
  by_cases hleaf : cn.leaf = true
  · refine nodeAt_leaf hleaf ?_ ?_ ?_ <;> rw [hlab]
    · exact hkey
    · exact P.keys_mem
    · exact hat.leaf_level hleaf
  · have hinner : cn.leaf = false := by simpa using hleaf
    refine Fits.nodeAt_inner hinner hlab hkey (P.tiles hinner) (hat.inner_level hinner) ?_
    exact fun e he => S.kids_spec (P.kids hinner e he)

theorem joined_kids (S : DegreeSite b h lab g ix p i c d pn cn dn) (e : Nat) :
    (e ∈ h.graph.kids c ∨ e ∈ h.graph.kids d) ↔ cn.leaf = false ∧ e ∈ joinedPtrs cn dn := by
  have hcok := S.labelled.node_ok c cn S.c_node
  have hdok := S.labelled.node_ok d dn S.d_node
  rw [Heap.graph_kids S.c_node, Heap.graph_kids S.d_node, Node.kids, Node.kids, S.leaf_eq,
    joinedPtrs, Node.getABDegree, Node.getABDegree, arraycopy_all hcok.ptrs_length,
    arraycopy_all hdok.ptrs_length, List.mem_append]
  cases cn.leaf <;> simp

/-- New leaves that hold what the siblings hold keep the values. -/
theorem values (S : DegreeSite b h lab g ix p i c d pn cn dn) {rem R : List Nat}
    (hrem : Removed p c d cn.leaf rem R) {news : List (Node K)} {labs : List (Label K)}
    (hnews : cn.leaf = true → ∀ (k : K) (j : Nat) (m : Node K) (t : Label K),
      news[j]? = some m → m.leaf = true → labs[j]? = some t → k ∈ t.range →
        (k ∈ (lab c).range → m.value k = cn.value k)
        ∧ (k ∈ (lab d).range → m.value k = dn.value k)) :
    Values h lab news rem labs fun _ v => v := by
  intro k e en he hen hleaf hk j m t hm hml ht hkt
  rcases (hrem.rem_iff e).mp he with rfl | rfl | rfl
  · obtain rfl := Option.some.inj (S.p_node.symm.trans hen)
    exact absurd (S.p_inner.symm.trans hleaf) (by simp)
  · obtain rfl := Option.some.inj (S.c_node.symm.trans hen)
    exact (hnews hleaf k j m t hm hml ht hkt).1 hk
  · obtain rfl := Option.some.inj (S.d_node.symm.trans hen)
    exact (hnews (S.leaf_eq.symm.trans hleaf) k j m t hm hml ht hkt).2 hk

/-! ## Absorb sibling -/

theorem minDegree_le (hb : 3 ≤ b) {sz : Nat} (hsz : sz < 2 * minDegree b) : sz ≤ b := by
  have : minDegree b = max (b / 4) 2 := rfl
  omega

/-- The root and its two children become one node. -/
theorem absorbRoot_fits (S : DegreeSite b h lab entry ix p i c d pn cn dn) (hb : 3 ≤ b)
    (hsz : cn.size + dn.size < 2 * minDegree b) (hdeg : pn.size = 2) {key : K}
    (hkey : key ∈ (lab c).range ∨ key ∈ (lab d).range) {V rem R : List Nat}
    (hrem : Removed p c d cn.leaf rem R) (hV : entry ∈ V ∧ R ⊆ V) :
    ∃ n labs, absorbSibling pn cn dn i key = some n
      ∧ Fits b h lab V R entry ix p 0 [n] rem labs
      ∧ Values h lab [n] rem labs fun _ v => v := by
  obtain ⟨A, x, B, P, Q, H, J, hk, hp, hA, hP, hQ, hhole, hcH, hdH, hJ, hpart, hvalue⟩ := S.joined
  have hpok := S.labelled.node_ok p pn S.p_node
  -- nothing is left of `p`, so the hole is all of its range
  have hempty : P = [] ∧ Q = [] := by
    have := hpok.ptrs_length
    rw [hp, List.length_append, List.length_cons, List.length_cons] at this
    exact ⟨List.length_eq_zero_iff.mp (by omega), List.length_eq_zero_iff.mp (by omega)⟩
  obtain ⟨rfl, rfl⟩ := hempty
  have hAB : A = [] ∧ B = [] :=
    ⟨List.length_eq_zero_iff.mp (by rw [hA, ← hP]; rfl),
      List.length_eq_zero_iff.mp (by rw [← hQ]; rfl)⟩
  obtain ⟨rfl, rfl⟩ := hAB
  have hH : H = (lab p).range := by simpa using hhole
  subst hH
  have hok := hpart.node_ok (minDegree_le hb hsz) key
  have hkeyH : key ∈ (lab p).range := hkey.elim (fun hk => hcH hk) fun hk => hdH hk
  refine ⟨⟨cn.leaf, true, cn.size + dn.size, key, J, joinedPtrs cn dn⟩,
    [⟨(lab p).range, (lab c).level, min (lab c).pos (lab d).pos⟩], ?_, ?_, ?_⟩
  · simp [absorbSibling, hJ, S.p_weight, S.c_weight, S.d_weight, Node.getABDegree, Node.isLeaf]
  · refine
      { member := S.g_member
        old_kid := S.p_child
        old_mem := (hrem.rem_iff p).mpr (Or.inl rfl)
        rem_kid := S.rem_kid hrem
        finalized := S.finalized hrem
        frozen := hV
        labs_length := rfl
        exists_top := ⟨_, _, rfl, rfl, ?_, rfl, ?_, fun hne => absurd rfl hne, fun _ => rfl⟩
        node_ok := ?_
        node_at := ?_
        exits := ?_ }
    · intro j hj
      exact Or.inl (by simpa using hj)
    · exact lt_min (lt_trans (S.labelled.kid_pos S.p_kid) (S.labelled.kid_pos S.c_kid))
        (lt_trans (S.labelled.kid_pos S.p_kid) (S.labelled.kid_pos S.d_kid))
    · intro j m hm
      obtain ⟨rfl, rfl⟩ := getElem?_one hm
      exact hok
    · intro j m hm
      obtain ⟨rfl, rfl⟩ := getElem?_one hm
      exact S.part_at hpart hkeyH (Labels.extend_new rfl)
    · intro e _
      rw [S.exits hrem hp e, S.joined_kids]
      simp [Node.kids]
  · refine S.values hrem fun hleaf k j m t hm hml _ _ => ?_
    obtain ⟨rfl, rfl⟩ := getElem?_one hm
    rw [hok.value_eq hleaf]
    exact hvalue hleaf k

/-- A copy of the parent in which new nodes take the place of the siblings. -/
theorem parent_at (S : DegreeSite b h lab g ix p i c d pn cn dn) {P Q es V R : List Nat}
    {x new size : Nat} {keys : List K} {news : List (Node K)} {labs : List (Label K)}
    (hp : pn.ptrs = P ++ c :: d :: Q)
    (htiles : Tiles (lab p).range keys (P.map (fun e => (lab e).range)
      ++ es.map (fun e => (lab.extend h labs e).range) ++ Q.map fun e => (lab e).range))
    (hlab : lab.extend h labs x = ⟨(lab p).range, (lab p).level, (lab p).pos⟩)
    (hes : ∀ e ∈ es, e < (h.change V R g ix new news).length
      ∧ (lab p).pos < (lab.extend h labs e).pos
      ∧ (lab.extend h labs e).level + (h.change V R g ix new news).weight e = (lab p).level) :
    NodeAt (h.change V R g ix new news) (lab.extend h labs) x
      ⟨false, true, size, pn.searchKey, keys, P ++ es ++ Q⟩ := by
  have hat := S.labelled.node_at p pn S.p_node
  have hold : ∀ e, e ∈ P ∨ e ∈ Q → e < h.length ∧ (lab p).pos < (lab e).pos
      ∧ (lab e).level + h.weight e = (lab p).level := by
    intro e he
    have hkid : e ∈ pn.kids := by
      rw [Node.kids_inner S.p_inner, hp]
      simp only [List.mem_append, List.mem_cons]
      tauto
    exact ⟨hat.kid_lt e hkid, hat.kid_pos e hkid, hat.kid_level S.p_ne_entry e hkid⟩
  have hkid : ∀ e ∈ P ++ es ++ Q, (e ∈ P ∨ e ∈ Q) ∨ e ∈ es := by
    intro e he
    simp only [List.mem_append] at he
    tauto
  refine
    { search_mem := by rw [hlab]; exact hat.search_mem
      keys_mem := fun k hk => by rw [hlab]; exact htiles.mem_keys hk
      tiles := fun _ => ?_
      kid_lt := fun e he => ?_
      kid_pos := fun e he => ?_
      leaf_level := fun hl => Bool.noConfusion hl
      inner_level := fun _ => by rw [hlab]; exact hat.inner_level S.p_inner
      kid_level := fun _ e he => ?_ }
  · have hmapP : P.map (fun e => (lab.extend h labs e).range) = P.map fun e => (lab e).range :=
      List.map_congr_left fun e he => by rw [Labels.extend_old (hold e (Or.inl he)).1]
    have hmapQ : Q.map (fun e => (lab.extend h labs e).range) = Q.map fun e => (lab e).range :=
      List.map_congr_left fun e he => by rw [Labels.extend_old (hold e (Or.inr he)).1]
    rw [hlab, List.map_append, List.map_append, hmapP, hmapQ]
    exact htiles
  · rcases hkid e he with he | he
    · rw [Heap.change_length]
      exact Nat.lt_of_lt_of_le (hold e he).1 (Nat.le_add_right _ _)
    · exact (hes e he).1
  · rw [hlab]
    rcases hkid e he with he | he
    · rw [Labels.extend_old (hold e he).1]
      exact (hold e he).2.1
    · exact (hes e he).2.1
  · rw [hlab]
    rcases hkid e he with he | he
    · rw [Labels.extend_old (hold e he).1, Heap.change_weight (hold e he).1]
      exact (hold e he).2.2
    · exact (hes e he).2.2

/-- Whichever of the siblings is `l`, the new node stands in their place. -/
theorem withoutSibling_eq {A B : List K} {x : K} {P Q : List Nat} (hok : NodeOk b pn)
    (hk : pn.keys = A ++ x :: B) (hp : pn.ptrs = P ++ c :: d :: Q) (hA : A.length = i)
    (hP : P.length = i) {ixL ixS : Nat} (hix : (ixL = i ∧ ixS = i + 1) ∨ (ixL = i + 1 ∧ ixS = i))
    (newl : Nat) : withoutSibling pn i ixL ixS newl
      = ⟨false, true, pn.size - 1, pn.searchKey, A ++ B, P ++ [newl] ++ Q⟩ := by
  have hkeys : (A ++ x :: B).eraseIdx i = A ++ B := by
    rw [← hA, List.eraseIdx_append_of_length_le (Nat.le_refl _), Nat.sub_self,
      List.eraseIdx_cons_zero]
  have hptrs : ((P ++ c :: d :: Q).eraseIdx ixS).set (ixL - if ixS < ixL then 1 else 0) newl
      = P ++ [newl] ++ Q := by
    rcases hix with ⟨rfl, rfl⟩ | ⟨rfl, rfl⟩
    · rw [if_neg (by omega), ← hP, List.eraseIdx_append_of_length_le (by omega)]
      simp
    · rw [if_pos (by omega), ← hP, List.eraseIdx_append_of_length_le (by omega)]
      simp
  rw [withoutSibling, arraycopy_all hok.keys_length, Node.getABDegree,
    arraycopy_all hok.ptrs_length, hk, hp, hkeys, hptrs]

/-- The siblings become one node under a copy of the parent. -/
theorem absorbSibling_fits (S : DegreeSite b h lab g ix p i c d pn cn dn) (hb : 3 ≤ b)
    (hsz : cn.size + dn.size < 2 * minDegree b) (hdeg : 2 ≤ pn.size) {key : K}
    (hkey : key ∈ (lab c).range ∨ key ∈ (lab d).range) {ixL ixS : Nat}
    (hix : (ixL = i ∧ ixS = i + 1) ∨ (ixL = i + 1 ∧ ixS = i)) {V rem R : List Nat}
    (hrem : Removed p c d cn.leaf rem R) (hV : g ∈ V ∧ R ⊆ V) :
    ∃ n labs, absorbSibling pn cn dn i key = some n
      ∧ Fits b h lab V R g ix p 1 [n, withoutSibling pn i ixL ixS h.length] rem labs
      ∧ Values h lab [n, withoutSibling pn i ixL ixS h.length] rem labs fun _ v => v := by
  obtain ⟨A, x, B, P, Q, H, J, hk, hp, hA, hP, hQ, hhole, hcH, hdH, hJ, hpart, hvalue⟩ := S.joined
  have hpok := S.labelled.node_ok p pn S.p_node
  have hok := hpart.node_ok (minDegree_le hb hsz) key
  have hkeyH : key ∈ H := hkey.elim (fun hk => hcH hk) fun hk => hdH hk
  have hwithout := withoutSibling_eq hpok hk hp hA hP hix h.length
  have hlenp := hpok.ptrs_length
  have hlenk := hpok.keys_length
  rw [hp, List.length_append, List.length_cons, List.length_cons] at hlenp
  obtain ⟨labs, hlabs⟩ : ∃ labs : List (Label K),
      labs = [⟨H, (lab c).level, min (lab c).pos (lab d).pos⟩,
        ⟨(lab p).range, (lab p).level, (lab p).pos⟩] := ⟨_, rfl⟩
  have hlab0 : lab.extend h labs h.length
      = ⟨H, (lab c).level, min (lab c).pos (lab d).pos⟩ := by
    rw [hlabs]
    exact Labels.extend_new (i := 0) rfl
  have hlab1 : lab.extend h labs (h.length + 1)
      = ⟨(lab p).range, (lab p).level, (lab p).pos⟩ := by
    rw [hlabs]
    exact Labels.extend_new rfl
  rw [hwithout]
  refine ⟨⟨cn.leaf, true, cn.size + dn.size, key, J, joinedPtrs cn dn⟩, labs, ?_, ?_, ?_⟩
  · simp [absorbSibling, hJ, S.p_weight, S.c_weight, S.d_weight, Node.getABDegree, Node.isLeaf]
  · refine
      { member := S.g_member
        old_kid := S.p_child
        old_mem := (hrem.rem_iff p).mpr (Or.inl rfl)
        rem_kid := S.rem_kid hrem
        finalized := S.finalized hrem
        frozen := hV
        labs_length := by rw [hlabs]; rfl
        exists_top := ⟨_, ⟨(lab p).range, (lab p).level, (lab p).pos⟩, rfl, by rw [hlabs]; rfl, ?_,
          rfl, S.labelled.kid_pos S.p_kid, ?_, fun _ => rfl⟩
        node_ok := ?_
        node_at := ?_
        exits := ?_ }
    · intro j hj
      obtain rfl | rfl : j = 0 ∨ j = 1 := by
        simp only [List.length_cons, List.length_nil] at hj
        omega
      · exact Or.inr (by simp [Node.kids])
      · exact Or.inl rfl
    · intro _
      rw [Heap.weight_eq S.p_node, S.p_weight]
    · intro j m hm
      rcases getElem?_two hm with ⟨rfl, rfl⟩ | ⟨rfl, rfl⟩
      · exact hok
      · refine nodeOk_inner ?_ ?_ (le_trans (Nat.sub_le _ _) hpok.size_le)
          (fun hw => Bool.noConfusion hw)
        · simp only [List.length_append, List.length_cons, List.length_nil]
          omega
        · rw [List.length_append]
          omega
    · intro j m hm
      rcases getElem?_two hm with ⟨rfl, rfl⟩ | ⟨rfl, rfl⟩
      · exact S.part_at hpart hkeyH hlab0
      · refine S.parent_at hp ?_ hlab1 ?_
        · rw [List.map_singleton, hlab0]
          simpa using hhole
        · intro e he
          obtain rfl := List.mem_singleton.mp he
          rw [hlab0, Heap.change_length]
          refine ⟨by simp, lt_min (S.labelled.kid_pos S.c_kid) (S.labelled.kid_pos S.d_kid), ?_⟩
          rw [Heap.change_weight_head rfl]
          exact S.kid_level.1
    · intro e he
      rw [S.exits hrem hp e, S.joined_kids]
      simp only [List.mem_cons, List.not_mem_nil, or_false, exists_eq_or_imp, exists_eq_left,
        Node.kids, List.mem_append, Bool.false_eq_true, if_false]
      cases cn.leaf with
      | true =>
          simp only [Bool.true_eq_false, false_and, or_false, if_true, List.not_mem_nil, false_or]
          constructor
          · rintro (h | h)
            · exact Or.inl (Or.inl h)
            · exact Or.inr h
          · rintro ((h | h) | h)
            · exact Or.inl h
            · omega
            · exact Or.inr h
      | false =>
          simp only [true_and, Bool.false_eq_true, if_false]
          constructor
          · rintro ((h | h) | h)
            · exact Or.inr (Or.inl (Or.inl h))
            · exact Or.inr (Or.inr h)
            · exact Or.inl h
          · rintro (h | (h | h) | h)
            · exact Or.inr h
            · exact Or.inl (Or.inl h)
            · omega
            · exact Or.inl (Or.inr h)
  · refine S.values hrem fun hleaf k j m t hm hml _ _ => ?_
    rcases getElem?_two hm with ⟨rfl, rfl⟩ | ⟨rfl, rfl⟩
    · rw [hok.value_eq hleaf]
      exact hvalue hleaf k
    · cases hml

/-! ## Distribute -/

/-- The three new nodes that distribute makes of the joined contents `J`. -/
theorem distribute_eq (S : DegreeSite b h lab g ix p i c d pn cn dn) {A B J : List K} {x : K}
    {P Q : List Nat} (hk : pn.keys = A ++ x :: B) (hp : pn.ptrs = P ++ c :: d :: Q)
    (hA : A.length = i) (hP : P.length = i) (hJ : joinedKeys pn cn dn i = some J) {sz inner : Nat}
    (hsz : cn.size + dn.size = sz) (hinner : inner = if cn.leaf then 0 else 1)
    (h4 : 4 ≤ sz) (hlenJ : J.length = sz - inner) (hlenN : (joinedPtrs cn dn).length = sz)
    {first mid second : K} (hfirst : J[0]? = some first) (hmid : J[sz / 2 - inner]? = some mid)
    (hsecond : J[sz / 2]? = some second) (nl nr : Nat) :
    distribute pn cn dn i (i + 1) nl nr
      = some (⟨false, true, pn.size, pn.searchKey, A ++ mid :: B, P ++ [nl, nr] ++ Q⟩,
          ⟨cn.leaf, true, sz / 2, first, J.take (sz / 2 - inner),
            (joinedPtrs cn dn).take (sz / 2)⟩,
          ⟨cn.leaf, true, sz - sz / 2, second, J.drop (sz / 2),
            (joinedPtrs cn dn).drop (sz / 2)⟩) := by
  have hpok := S.labelled.node_ok p pn S.p_node
  have hinner1 : inner ≤ 1 := by
    rw [hinner]
    split <;> omega
  have hkeys : (A ++ x :: B).set i mid = A ++ mid :: B := by
    rw [← hA]
    simp
  have hptrs : ((P ++ c :: d :: Q).set i nl).set (i + 1) nr = P ++ [nl, nr] ++ Q := by
    rw [← hP]
    simp
  have hdropk : arraycopy J (sz / 2 - inner + inner) (sz - sz / 2 - inner) = J.drop (sz / 2) := by
    rw [arraycopy_drop (by omega)]
    congr 1
    omega
  have hleft : (J.take (sz / 2 - inner))[0]? = some first := by
    rw [List.getElem?_take, if_pos (by omega), hfirst]
  have hright : (J.drop (sz / 2))[0]? = some second := by
    rw [List.getElem?_drop, Nat.add_zero, hsecond]
  have hinner' : (if cn.isLeaf = true then 0 else 1) = inner := hinner.symm
  have hpkeys : (arraycopy pn.keys 0 pn.getKeyCount).set i mid = A ++ mid :: B := by
    rw [arraycopy_all hpok.keys_length, hk, hkeys]
  have hpptrs : ((arraycopy pn.ptrs 0 pn.getABDegree).set i nl).set (i + 1) nr
      = P ++ [nl, nr] ++ Q := by
    rw [Node.getABDegree, arraycopy_all hpok.ptrs_length, hp, hptrs]
  have hdegree : cn.getABDegree + dn.getABDegree = sz := hsz
  simp only [distribute, hdegree, hinner', hJ, Option.bind_eq_bind, Option.bind_some, hdropk,
    arraycopy_zero (joinedPtrs cn dn), arraycopy_zero J, hmid, hleft, hright,
    arraycopy_rest hlenN, hpkeys, hpptrs]
  rw [Node.isLeaf, Node.isLeaf, S.leaf_eq]

/-- The siblings are evened out under a copy of the parent. -/
theorem distribute_fits (S : DegreeSite b h lab g ix p i c d pn cn dn)
    (hsz : ¬ cn.size + dn.size < 2 * minDegree b) {V rem R : List Nat}
    (hrem : Removed p c d cn.leaf rem R) (hV : g ∈ V ∧ R ⊆ V) :
    ∃ n l r labs, distribute pn cn dn i (i + 1) (h.length + 1) (h.length + 2) = some (n, l, r)
      ∧ Fits b h lab V R g ix p 0 [n, l, r] rem labs
      ∧ Values h lab [n, l, r] rem labs fun _ v => v := by
  obtain ⟨A, x, B, P, Q, H, J, hk, hp, hA, hP, hQ, hhole, hcH, hdH, hJ, hpart, hvalue⟩ := S.joined
  have hpok := S.labelled.node_ok p pn S.p_node
  have hcsize := (S.labelled.node_ok c cn S.c_node).size_le
  have hdsize := (S.labelled.node_ok d dn S.d_node).size_le
  have hmin : minDegree b = max (b / 4) 2 := rfl
  obtain ⟨sz, hszeq⟩ : ∃ sz, cn.size + dn.size = sz := ⟨_, rfl⟩
  obtain ⟨inner, hinner⟩ : ∃ inner, inner = if cn.leaf then 0 else 1 := ⟨_, rfl⟩
  have h4 : 4 ≤ sz := by omega
  rw [hszeq] at hpart
  have hlenJ : J.length = sz - inner := by
    rw [hpart.keys_length, hinner]
    split <;> rfl
  obtain ⟨first, mid, second, hfirst, hmid, hsecond, hmidH, hfirstH, hsecondH, hleft, hright,
    hhalves⟩ := hpart.halves h4 hinner
  have heq := S.distribute_eq hk hp hA hP hJ hszeq hinner h4 hlenJ hpart.ptrs_length hfirst hmid
    hsecond (h.length + 1) (h.length + 2)
  have hlok := hleft.node_ok (show sz / 2 ≤ b by omega) first
  have hrok := hright.node_ok (show sz - sz / 2 ≤ b by omega) second
  obtain ⟨labs, hlabs⟩ : ∃ labs : List (Label K),
      labs = [⟨(lab p).range, (lab p).level, (lab p).pos⟩,
        ⟨H ∩ Set.Iio mid, (lab c).level, min (lab c).pos (lab d).pos⟩,
        ⟨H ∩ Set.Ici mid, (lab c).level, min (lab c).pos (lab d).pos⟩] := ⟨_, rfl⟩
  have hlab0 : lab.extend h labs h.length
      = ⟨(lab p).range, (lab p).level, (lab p).pos⟩ := by
    rw [hlabs]
    exact Labels.extend_new (i := 0) rfl
  have hlab1 : lab.extend h labs (h.length + 1)
      = ⟨H ∩ Set.Iio mid, (lab c).level, min (lab c).pos (lab d).pos⟩ := by
    rw [hlabs]
    exact Labels.extend_new rfl
  have hlab2 : lab.extend h labs (h.length + 2)
      = ⟨H ∩ Set.Ici mid, (lab c).level, min (lab c).pos (lab d).pos⟩ := by
    rw [hlabs]
    exact Labels.extend_new rfl
  have hlenp := hpok.ptrs_length
  rw [hp, List.length_append, List.length_cons, List.length_cons] at hlenp
  refine ⟨_, _, _, labs, heq, ?_, ?_⟩
  · refine
      { member := S.g_member
        old_kid := S.p_child
        old_mem := (hrem.rem_iff p).mpr (Or.inl rfl)
        rem_kid := S.rem_kid hrem
        finalized := S.finalized hrem
        frozen := hV
        labs_length := by rw [hlabs]; rfl
        exists_top := ⟨_, ⟨(lab p).range, (lab p).level, (lab p).pos⟩, rfl, by rw [hlabs]; rfl, ?_,
          rfl, S.labelled.kid_pos S.p_kid, ?_, fun _ => rfl⟩
        node_ok := ?_
        node_at := ?_
        exits := ?_ }
    · intro j hj
      obtain rfl | rfl | rfl : j = 0 ∨ j = 1 ∨ j = 2 := by
        simp only [List.length_cons, List.length_nil] at hj
        omega
      · exact Or.inl rfl
      · exact Or.inr (by simp [Node.kids])
      · exact Or.inr (by simp [Node.kids])
    · intro _
      rw [Heap.weight_eq S.p_node, S.p_weight]
    · intro j m hm
      rcases getElem?_three hm with ⟨rfl, rfl⟩ | ⟨rfl, rfl⟩ | ⟨rfl, rfl⟩
      · refine nodeOk_inner ?_ ?_ hpok.size_le (fun hw => Bool.noConfusion hw)
        · simp only [List.length_append, List.length_cons, List.length_nil]
          omega
        · rw [List.length_append, List.length_cons]
          omega
      · exact hlok
      · exact hrok
    · intro j m hm
      rcases getElem?_three hm with ⟨rfl, rfl⟩ | ⟨rfl, rfl⟩ | ⟨rfl, rfl⟩
      · refine S.parent_at hp ?_ hlab0 ?_
        · -- the hole is filled with the two halves
          have hpair : Tiles H [mid] [H ∩ Set.Iio mid, H ∩ Set.Ici mid] :=
            tiles_pair.mpr ⟨hmidH, ⟨first, hfirstH⟩, rfl, rfl⟩
          have := hhole.fill (by rw [List.length_map, hP, hA]) hpair
          simpa [hlab1, hlab2] using this
        · intro e he
          have hpos : (lab p).pos < min (lab c).pos (lab d).pos :=
            lt_min (S.labelled.kid_pos S.c_kid) (S.labelled.kid_pos S.d_kid)
          simp only [List.mem_cons, List.not_mem_nil, or_false] at he
          rw [Heap.change_length]
          rcases he with rfl | rfl
          · rw [hlab1, Heap.change_weight_one rfl rfl]
            exact ⟨by simp, hpos, S.kid_level.1⟩
          · rw [hlab2, Heap.change_weight_one rfl rfl]
            exact ⟨by simp, hpos, S.kid_level.1⟩
      · exact S.part_at hleft hfirstH hlab1
      · exact S.part_at hright hsecondH hlab2
    · intro e he
      rw [S.exits hrem hp e, S.joined_kids]
      have hcut : e ∈ joinedPtrs cn dn
          ↔ e ∈ (joinedPtrs cn dn).take (sz / 2) ∨ e ∈ (joinedPtrs cn dn).drop (sz / 2) := by
        rw [← List.mem_append, List.take_append_drop]
      rw [hcut]
      simp only [List.mem_cons, List.not_mem_nil, or_false, exists_eq_or_imp, exists_eq_left,
        Node.kids, List.mem_append, Bool.false_eq_true, if_false]
      have hne : e ≠ h.length + 1 ∧ e ≠ h.length + 2 := by omega
      cases cn.leaf with
      | true =>
          simp only [Bool.true_eq_false, false_and, or_false, if_true, List.not_mem_nil, hne.1,
            hne.2]
      | false =>
          simp only [true_and, Bool.false_eq_true, if_false, hne.1, hne.2, or_false]
  · refine S.values hrem fun hleaf k j m t hm hml ht hkt => ?_
    have hinner0 : inner = 0 := by rw [hinner, if_pos hleaf]
    subst hinner0
    rw [hlabs] at ht
    rcases getElem?_three hm with ⟨rfl, rfl⟩ | ⟨rfl, rfl⟩ | ⟨rfl, rfl⟩
    · cases hml
    · cases ht
      have heq' := (hhalves hleaf k).1 hkt.2
      rw [hlok.value_eq hml]
      exact ⟨fun hc => heq'.trans ((hvalue hleaf k).1 hc),
        fun hd => heq'.trans ((hvalue hleaf k).2 hd)⟩
    · cases ht
      have heq' := (hhalves hleaf k).2 hkt.2
      rw [hrok.value_eq hml]
      exact ⟨fun hc => heq'.trans ((hvalue hleaf k).1 hc),
        fun hd => heq'.trans ((hvalue hleaf k).2 hd)⟩

end DegreeSite

end Pacer.Abtree
