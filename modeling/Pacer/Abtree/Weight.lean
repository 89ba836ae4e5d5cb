import Pacer.Abtree.Change

set_option autoImplicit false

/-! # Absorb and split

A node `l` of weight zero is removed together with its parent `p`: the children of both are put
side by side (`WeightSite.merged`) and go into one new node if they fit (`absorb_fits`), else into
two of them under a new parent (`split_fits`).
-/

namespace Pacer.Abtree

open Separators RangeGraph

variable {K : Type} [LinearOrder K]

/-- The place of a weight violation: `l` of weight zero under `p` under `g`. -/
structure WeightSite (b : Nat) (h : Heap K) (lab : Labels K) (g ix p ixL l : Nat)
    (pn ln : Node K) : Prop where
  labelled : Labelled b h lab
  g_member : h.Member g
  p_child : h.child g ix = some p
  l_child : h.child p ixL = some l
  p_node : h.node p = some pn
  l_node : h.node l = some ln
  p_weight : pn.weight = true
  l_weight : ln.weight = false

namespace WeightSite

variable {b : Nat} {h : Heap K} {lab : Labels K} {g ix p ixL l : Nat} {pn ln : Node K}

theorem p_kid (S : WeightSite b h lab g ix p ixL l pn ln) : p ∈ h.graph.kids g :=
  List.mem_of_getElem? (Heap.child_eq_some.mp S.p_child)

theorem l_kid (S : WeightSite b h lab g ix p ixL l pn ln) : l ∈ h.graph.kids p :=
  List.mem_of_getElem? (Heap.child_eq_some.mp S.l_child)

theorem p_member (S : WeightSite b h lab g ix p ixL l pn ln) : h.Member p :=
  S.g_member.tail S.p_kid

theorem p_ne_entry (S : WeightSite b h lab g ix p ixL l pn ln) : p ≠ entry :=
  S.labelled.kid_ne_entry S.g_member S.p_kid

theorem l_inner (S : WeightSite b h lab g ix p ixL l pn ln) : ln.leaf = false := by
  cases hl : ln.leaf with
  | false => rfl
  | true =>
      have := (S.labelled.node_ok l ln S.l_node).leaf_weight hl
      rw [S.l_weight] at this
      cases this

theorem p_inner (S : WeightSite b h lab g ix p ixL l pn ln) : pn.leaf = false := by
  have := S.l_kid
  rw [Heap.graph_kids S.p_node] at this
  exact Node.inner_of_kid this

theorem l_level (S : WeightSite b h lab g ix p ixL l pn ln) :
    (lab l).level = (lab p).level := by
  have hkid := S.l_kid
  rw [Heap.graph_kids S.p_node] at hkid
  have := (S.labelled.node_at p pn S.p_node).kid_level S.p_ne_entry l hkid
  rwa [Heap.weight_eq S.l_node, S.l_weight] at this

/-- The parent and the child both go. -/
theorem finalized (S : WeightSite b h lab g ix p ixL l pn ln) :
    ∀ x n, h.node x = some n → (x ∈ [p, l] ↔ x ∈ [p, l] ∧ n.leaf = false) := by
  intro x n hx
  refine ⟨fun hmem => ⟨hmem, ?_⟩, fun hmem => hmem.1⟩
  simp only [List.mem_cons, List.not_mem_nil, or_false] at hmem
  rcases hmem with rfl | rfl
  · obtain rfl := Option.some.inj (S.p_node.symm.trans hx)
    exact S.p_inner
  · obtain rfl := Option.some.inj (S.l_node.symm.trans hx)
    exact S.l_inner

theorem rem_kid (S : WeightSite b h lab g ix p ixL l pn ln) :
    ∀ r ∈ [p, l], r = p ∨ r ∈ h.graph.kids p := by
  intro r hr
  simp only [List.mem_cons, List.not_mem_nil, or_false] at hr
  rcases hr with rfl | rfl
  · exact Or.inl rfl
  · exact Or.inr S.l_kid

/-- **The children of both side by side**: the separators still cut the range of `p`, and nobody
but `l` is left out. -/
theorem merged (S : WeightSite b h lab g ix p ixL l pn ln) :
    Tiles (lab p).range (mergedKeys pn ln ixL) ((mergedPtrs pn ln ixL).map fun c => (lab c).range)
    ∧ (mergedPtrs pn ln ixL).length = pn.size + 1
    ∧ (∀ c ∈ mergedPtrs pn ln ixL, c < h.length ∧ (lab p).pos < (lab c).pos
        ∧ (lab c).level + h.weight c = (lab p).level)
    ∧ ∀ c, ((∃ q ∈ [p, l], c ∈ h.graph.kids q) ∧ c ∉ [p, l]) ↔ c ∈ mergedPtrs pn ln ixL := by
  have hpok := S.labelled.node_ok p pn S.p_node
  have hlok := S.labelled.node_ok l ln S.l_node
  have hpat := S.labelled.node_at p pn S.p_node
  have hlat := S.labelled.node_at l ln S.l_node
  obtain ⟨A, B, P, Q, hk, hp, hA, hP, hQ, -⟩ := S.labelled.inner_cut S.p_node S.l_child
  have hkp : h.graph.kids p = P ++ l :: Q := by
    rw [Heap.graph_kids S.p_node, Node.kids_inner S.p_inner, hp]
  have hkl : h.graph.kids l = ln.ptrs := by
    rw [Heap.graph_kids S.l_node, Node.kids_inner S.l_inner]
  have hkeys : mergedKeys pn ln ixL = A ++ ln.keys ++ B := by
    rw [mergedKeys, arraycopy_zero, arraycopy_all hlok.keys_length,
      arraycopy_rest hpok.keys_length, ← hA, hk, List.take_left, List.drop_left]
  have hptrs : mergedPtrs pn ln ixL = P ++ ln.ptrs ++ Q := by
    rw [mergedPtrs, arraycopy_zero, Node.getABDegree, Node.getABDegree,
      arraycopy_all hlok.ptrs_length, arraycopy_rest hpok.ptrs_length, ← hP, hp, List.take_left]
    simp [List.drop_append]
  have htiles := hpat.tiles S.p_inner
  rw [hk, hp, List.map_append, List.map_cons] at htiles
  have hnodup := S.labelled.kids_nodup S.p_member
  rw [hkp] at hnodup
  have hlPQ : l ∉ P ∧ l ∉ Q := by
    obtain ⟨-, hnd, hdisj⟩ := List.nodup_append.mp hnodup
    exact ⟨fun hmem => hdisj l hmem l List.mem_cons_self rfl, (List.nodup_cons.mp hnd).1⟩
  have hkid : ∀ c ∈ P ++ ln.ptrs ++ Q, c ∈ h.graph.kids p ∨ c ∈ h.graph.kids l := by
    intro c hc
    rw [hkp, hkl]
    simp only [List.mem_append, List.mem_cons] at hc ⊢
    tauto
  refine ⟨?_, ?_, ?_, ?_⟩
  · rw [hkeys, hptrs, List.map_append, List.map_append]
    exact htiles.fill (by rw [List.length_map, hP, hA]) (hlat.tiles S.l_inner)
  · have h₁ := hpok.ptrs_length
    have h₂ := hlok.ptrs_length
    have h₃ := hlok.zero_size S.l_weight
    rw [hp, List.length_append, List.length_cons] at h₁
    rw [hptrs, List.length_append, List.length_append]
    omega
  · intro c hc
    rw [hptrs] at hc
    rcases hkid c hc with hc | hc
    · refine ⟨S.labelled.kid_lt hc, S.labelled.kid_pos hc, ?_⟩
      rw [Heap.graph_kids S.p_node] at hc
      exact hpat.kid_level S.p_ne_entry c hc
    · refine ⟨S.labelled.kid_lt hc,
        lt_trans (S.labelled.kid_pos S.l_kid) (S.labelled.kid_pos hc), ?_⟩
      rw [Heap.graph_kids S.l_node] at hc
      rw [← S.l_level]
      exact hlat.kid_level (S.labelled.kid_ne_entry S.p_member S.l_kid) c hc
  · intro c
    have hpp : p ∉ h.graph.kids p := fun hc => lt_irrefl _ (S.labelled.kid_pos hc)
    have hll : l ∉ h.graph.kids l := fun hc => lt_irrefl _ (S.labelled.kid_pos hc)
    have hpl : p ∉ h.graph.kids l := fun hc =>
      lt_asymm (S.labelled.kid_pos hc) (S.labelled.kid_pos S.l_kid)
    rw [hptrs]
    constructor
    · rintro ⟨⟨q, hq, hc⟩, hnot⟩
      simp only [List.mem_cons, List.not_mem_nil, or_false, not_or] at hq hnot
      rcases hq with rfl | rfl
      · rw [hkp] at hc
        simp only [List.mem_append, List.mem_cons] at hc ⊢
        tauto
      · rw [hkl] at hc
        simp [hc]
    · intro hc
      have hne : c ∉ [p, l] := by
        simp only [List.mem_cons, List.not_mem_nil, or_false]
        rintro (rfl | rfl)
        · rcases hkid c hc with hc | hc
          · exact hpp hc
          · exact hpl hc
        · simp only [List.mem_append] at hc
          rw [hkl] at hll
          tauto
      rcases hkid c hc with hc | hc
      · exact ⟨⟨p, by simp, hc⟩, hne⟩
      · exact ⟨⟨l, by simp, hc⟩, hne⟩

theorem merged_keys_length (S : WeightSite b h lab g ix p ixL l pn ln) :
    (mergedKeys pn ln ixL).length = pn.size := by
  obtain ⟨htiles, hlen, -⟩ := S.merged
  have := htiles.length_eq
  rw [List.length_map] at this
  omega

/-- The size the source computes for the merged node. -/
theorem merged_size (S : WeightSite b h lab g ix p ixL l pn ln) :
    pn.getABDegree + ln.getABDegree - 1 = pn.size + 1 := by
  have := (S.labelled.node_ok l ln S.l_node).zero_size S.l_weight
  rw [Node.getABDegree, Node.getABDegree]
  omega

/-- No leaf is removed. -/
theorem values (S : WeightSite b h lab g ix p ixL l pn ln) (news : List (Node K))
    (labs : List (Label K)) : Values h lab news [p, l] labs fun _ v => v := by
  intro k e en he hen hleaf
  have := ((S.finalized e en hen).mp he).2
  rw [hleaf] at this
  cases this

/-! ## Absorb -/

theorem absorb_fits (S : WeightSite b h lab g ix p ixL l pn ln)
    (hsize : pn.getABDegree + ln.getABDegree - 1 ≤ b) {V : List Nat} (hV : [g, p, l] ⊆ V) :
    ∃ n, absorb pn ln ixL = some n
      ∧ Fits b h lab V [p, l] g ix p 0 [n] [p, l]
          [⟨(lab p).range, (lab p).level, (lab p).pos⟩] := by
  obtain ⟨htiles, hlen, hkids, hexits⟩ := S.merged
  have hklen := S.merged_keys_length
  have hpsize := (S.labelled.node_ok p pn S.p_node).inner_size S.p_inner
  rw [S.merged_size] at hsize
  obtain ⟨first, rest, hfirst⟩ : ∃ first rest, mergedKeys pn ln ixL = first :: rest := by
    refine List.exists_cons_of_ne_nil fun hnil => ?_
    rw [hnil, List.length_nil] at hklen
    omega
  have hhead : (mergedKeys pn ln ixL)[0]? = some first := by rw [hfirst]; rfl
  refine ⟨⟨false, true, pn.size + 1, first, mergedKeys pn ln ixL, mergedPtrs pn ln ixL⟩,
    ?_, ?_⟩
  · simp only [absorb, hhead, Node.isLeaf, S.l_inner, S.merged_size, Option.bind_eq_bind,
      Option.bind_some, Bool.false_eq_true, if_false]
  · have hlab : lab.extend h [⟨(lab p).range, (lab p).level, (lab p).pos⟩] (h.length + 0)
        = ⟨(lab p).range, (lab p).level, (lab p).pos⟩ := Labels.extend_new rfl
    refine
      { member := S.g_member
        old_kid := S.p_child
        old_mem := List.mem_cons_self
        rem_kid := S.rem_kid
        finalized := S.finalized
        frozen := ⟨hV (by simp), fun x hx => hV (List.mem_cons_of_mem _ hx)⟩
        labs_length := rfl
        exists_top := ⟨_, _, rfl, rfl, ?_, rfl, S.labelled.kid_pos S.p_kid, ?_, fun _ => rfl⟩
        node_ok := ?_
        node_at := ?_
        exits := ?_ }
    · intro i hi
      exact Or.inl (by simpa using hi)
    · intro _
      rw [Heap.weight_eq S.p_node, S.p_weight]
    · intro i m hm
      obtain ⟨rfl, rfl⟩ := getElem?_one hm
      exact nodeOk_inner hlen (by rw [hklen]) hsize (fun hw => Bool.noConfusion hw)
    · intro i m hm
      obtain ⟨rfl, rfl⟩ := getElem?_one hm
      refine Fits.nodeAt_inner rfl hlab ?_ htiles ?_ hkids
      · exact htiles.mem_keys (by rw [hfirst]; exact List.mem_cons_self)
      · exact (S.labelled.node_at p pn S.p_node).inner_level S.p_inner
    · intro c _
      rw [hexits c]
      simp [Node.kids]

/-! ## Split -/

/-- The labels of the two halves and of their new parent. -/
def splitLabels (l : Label K) (mid : K) (pos : ℚ) : List (Label K) :=
  [⟨l.range ∩ Set.Iio mid, l.level, pos⟩, ⟨l.range ∩ Set.Ici mid, l.level, pos⟩,
    ⟨l.range, l.level + 1, l.pos⟩]

theorem split_fits (S : WeightSite b h lab g ix p ixL l pn ln) (hb : 3 ≤ b)
    (hsize : ¬ pn.getABDegree + ln.getABDegree - 1 ≤ b) {V : List Nat} (hV : [g, p, l] ⊆ V) :
    ∃ left right mid pos, split pn ln ixL h.length (h.length + 1) (decide (g = entry))
        = some (left, right, pairNode (decide (g = entry)) mid h.length (h.length + 1))
      ∧ Fits b h lab V [p, l] g ix p 2
          [left, right, pairNode (decide (g = entry)) mid h.length (h.length + 1)] [p, l]
          (splitLabels (lab p) mid pos) := by
  obtain ⟨htiles, hlen, hkids, hexits⟩ := S.merged
  have hklen := S.merged_keys_length
  have hpsize := (S.labelled.node_ok p pn S.p_node).size_le
  rw [S.merged_size] at hsize
  have hfull : pn.size = b := by omega
  obtain ⟨pos, hpos, hposkids⟩ := exists_pos_between _ fun c hc => (hkids c hc).2.1
  have h2 : 2 ≤ (pn.size + 1) / 2 := by omega
  have hs : (pn.size + 1) / 2 + 2
      ≤ ((mergedPtrs pn ln ixL).map fun c => (lab c).range).length := by
    rw [List.length_map]
    omega
  obtain ⟨first, mid, second, hfirst, hmid, hsecond, hmidp, hfirstp, hsecondp, hleft, hright⟩ :=
    htiles.halves h2 hs
  rw [← List.map_take] at hleft
  rw [← List.map_drop] at hright
  have hdropk : arraycopy (mergedKeys pn ln ixL) ((pn.size + 1) / 2)
      (pn.size + 1 - (pn.size + 1) / 2 - 1) = (mergedKeys pn ln ixL).drop ((pn.size + 1) / 2) := by
    have := arraycopy_rest hklen ((pn.size + 1) / 2)
    rwa [show pn.size + 1 - (pn.size + 1) / 2 - 1 = pn.size - (pn.size + 1) / 2 by omega]
  refine ⟨⟨false, true, (pn.size + 1) / 2, first,
      (mergedKeys pn ln ixL).take ((pn.size + 1) / 2 - 1),
      (mergedPtrs pn ln ixL).take ((pn.size + 1) / 2)⟩,
    ⟨false, true, pn.size + 1 - (pn.size + 1) / 2, second,
      (mergedKeys pn ln ixL).drop ((pn.size + 1) / 2),
      (mergedPtrs pn ln ixL).drop ((pn.size + 1) / 2)⟩, mid, pos, ?_, ?_⟩
  · simp only [split, S.merged_size, hfirst, hmid, hsecond, hdropk, arraycopy_zero,
      arraycopy_rest hlen, Node.isLeaf, S.l_inner, Option.bind_eq_bind, Option.bind_some,
      Bool.false_eq_true, if_false, pairNode]
  generalize hl : mergedKeys pn ln ixL = M at *
  generalize hr : mergedPtrs pn ln ixL = N at *
  have hlab0 : lab.extend h (splitLabels (lab p) mid pos) h.length
      = ⟨(lab p).range ∩ Set.Iio mid, (lab p).level, pos⟩ := Labels.extend_new (i := 0) rfl
  have hlab1 : lab.extend h (splitLabels (lab p) mid pos) (h.length + 1)
      = ⟨(lab p).range ∩ Set.Ici mid, (lab p).level, pos⟩ := Labels.extend_new rfl
  have hlab2 : lab.extend h (splitLabels (lab p) mid pos) (h.length + 2)
      = ⟨(lab p).range, (lab p).level + 1, (lab p).pos⟩ := Labels.extend_new rfl
  have hlevel := (S.labelled.node_at p pn S.p_node).inner_level S.p_inner
  refine
    { member := S.g_member
      old_kid := S.p_child
      old_mem := List.mem_cons_self
      rem_kid := S.rem_kid
      finalized := S.finalized
      frozen := ⟨hV (by simp), fun x hx => hV (List.mem_cons_of_mem _ hx)⟩
      labs_length := rfl
      exists_top := ⟨_, _, rfl, rfl, ?_, rfl, S.labelled.kid_pos S.p_kid, ?_, ?_⟩
      node_ok := ?_
      node_at := ?_
      exits := ?_ }
  · intro i hi
    obtain rfl | rfl | rfl : i = 0 ∨ i = 1 ∨ i = 2 := by
      simp only [List.length_cons, List.length_nil] at hi
      omega
    · exact Or.inr (pairNode_kids.mpr (Or.inl rfl))
    · exact Or.inr (pairNode_kids.mpr (Or.inr rfl))
    · exact Or.inl rfl
  · intro hne
    rw [Heap.weight_eq S.p_node, S.p_weight]
    simp [hne, pairNode]
  · intro heq
    simp [heq, pairNode]
  · intro i m hm
    rcases getElem?_three hm with ⟨rfl, rfl⟩ | ⟨rfl, rfl⟩ | ⟨rfl, rfl⟩
    · refine nodeOk_inner ?_ ?_ (by omega) (fun hw => Bool.noConfusion hw)
      · rw [List.length_take]
        omega
      · rw [List.length_take]
        omega
    · refine nodeOk_inner ?_ ?_ (by omega) (fun hw => Bool.noConfusion hw)
      · rw [List.length_drop]
        omega
      · rw [List.length_drop]
        omega
    · exact pairNode_ok (by omega) _ _ _ _
  · intro i m hm
    rcases getElem?_three hm with ⟨rfl, rfl⟩ | ⟨rfl, rfl⟩ | ⟨rfl, rfl⟩
    · exact Fits.nodeAt_inner rfl hlab0 hfirstp hleft hlevel fun c hc =>
        have hcN := List.mem_of_mem_take hc
        ⟨(hkids c hcN).1, hposkids c hcN, (hkids c hcN).2.2⟩
    · exact Fits.nodeAt_inner rfl hlab1 hsecondp hright hlevel fun c hc =>
        have hcN := List.mem_of_mem_drop hc
        ⟨(hkids c hcN).1, hposkids c hcN, (hkids c hcN).2.2⟩
    · refine pairNode_at ?_ ?_ ?_ ?_ ?_ ?_
        ⟨Heap.change_weight_head rfl, Heap.change_weight_one rfl rfl⟩ ?_ <;>
        simp only [hlab0, hlab1, hlab2, Heap.change_length]
      · exact hmidp
      · exact ⟨first, hfirstp⟩
      · simp
      · exact ⟨hpos, hpos⟩
      · exact ⟨trivial, trivial⟩
  · intro c hc
    rw [hexits c]
    simp only [List.mem_cons, List.not_mem_nil, or_false, exists_eq_or_imp, exists_eq_left,
      pairNode_kids]
    rw [Node.kids_inner rfl, Node.kids_inner rfl]
    dsimp only
    constructor
    · intro hcN
      rw [← List.take_append_drop ((pn.size + 1) / 2) N, List.mem_append] at hcN
      tauto
    · rintro (hcN | hcN | hcN)
      · exact List.mem_of_mem_take hcN
      · exact List.mem_of_mem_drop hcN
      · omega

end WeightSite

end Pacer.Abtree
