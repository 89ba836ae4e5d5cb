import Pacer.Abtree.Threads
import Pacer.Abtree.Weight
import Pacer.Abtree.Degree

set_option autoImplicit false

/-! # What an update does when its SCX succeeds

When all handles are current, what the thread has seen holds again: the place of the change is in
the tree as the attempt remembers it. So the change fits, and `Commit` says what it does to the
tree, to the dictionary and to the violations (`AttemptOk.commit`). Building the new nodes reads
only what never changes, and so never fails, even if the handles are not current any more
(`AttemptOk.exists_build`).
-/

namespace Pacer.Abtree

open Separators RangeGraph Relation

variable {K : Type} [LinearOrder K]

/-- The update `u` of the attempt `w`: the change fits, the violation that is fixed is removed, the
calls are for new nodes, one for each new node of weight zero, and the dictionary changes as the
operation says, or stays as it is. -/
structure Commit (b : Nat) (h : Heap K) (lab : Labels K) (w : Attempt K) (u : Update K)
    (old top : Nat) (labs : List (Label K)) : Prop where
  fits : Fits b h lab w.nodes w.finalized u.g u.ix old top u.news u.retire labs
  old_eq : u.old = old
  new_eq : u.new = h.length + top
  nodup : u.retire.Nodup
  held : ∀ x ∈ u.retire, x = w.cur.p ∨ x = w.cur.l ∨ w.sibling = some x
  viol : ∀ v, w.task.viol = some v → v ∈ u.retire
  calls : ∀ f ∈ u.calls, ∃ i < u.news.length, f.viol = h.length + i
  zero : ∀ (i : Nat) (n : Node K), u.news[i]? = some n → n.weight = false →
    .weight (h.length + i) ∈ u.calls
  effect : ∀ op, w.task = .op op → ∃ r, u.result = some r ∧ (dictionary K).apply h.content op
    = ((h.change w.nodes w.finalized u.g u.ix u.new u.news).content, r)
  keep : ∀ f, w.task = .fix f → u.result = none
    ∧ (h.change w.nodes w.finalized u.g u.ix u.new u.news).content = h.content

/-! ## What the handles say -/

section Current

variable {b : Nat} {h : Heap K} {lab : Labels K} {w : Attempt K}

omit [LinearOrder K] in
theorem Since.of_current {x info : Nat} {P : Cell K → Prop} (hs : Since h x info P)
    (hcur : h.Current x info) : ∃ c : Cell K, h[x]? = some c ∧ P c := by
  obtain ⟨c, hc, -, hP⟩ := hs
  obtain ⟨c', hc', -, hinfo⟩ := hcur
  obtain rfl := Option.some.inj (hc.symm.trans hc')
  exact ⟨c, hc, hP hinfo⟩

theorem Heap.child_of_ptrs {x ix y : Nat} {n : Node K} (hn : h.node x = some n)
    (hinner : n.leaf = false) (hy : n.ptrs[ix]? = some y) : h.child x ix = some y := by
  rw [Heap.child_eq_some, Heap.graph_kids hn, Node.kids_inner hinner, hy]

/-- A link with a pointer, when its handle is current. -/
theorem AttemptOk.checked (A : AttemptOk h lab w) (L : Labelled b h lab)
    (hcur : ∀ e ∈ w.linked, h.Current e.1.node e.2) (x ix y : Nat) (fin : Bool)
    (hk : ⟨x, some (ix, y), fin⟩ ∈ w.linked.map Prod.fst) {n : Node K} (hn : h.node x = some n)
    (hinner : n.leaf = false) : h.Member x ∧ h.child x ix = some y := by
  obtain ⟨⟨k, info⟩, he, rfl⟩ := List.mem_map.mp hk
  obtain ⟨c, hc, hmark, hptr⟩ := (A.linked _ he).of_current (hcur _ he)
  obtain ⟨c', hc', rfl⟩ := Heap.node_eq_some.mp hn
  obtain rfl := Option.some.inj (hc.symm.trans hc')
  exact ⟨L.member_of_unmarked hc hinner hmark,
    Heap.child_of_ptrs hn hinner (hptr ix y rfl)⟩

section

omit [LinearOrder K]

theorem Attempt.nodes_eq (w : Attempt K) : w.nodes = (w.linked.map Prod.fst).map Link.node := by
  rw [Attempt.nodes, List.map_map]
  rfl

theorem Attempt.finalized_eq (w : Attempt K) :
    w.finalized = ((w.linked.map Prod.fst).filter Link.finalize).map Link.node := by
  rw [Attempt.finalized, List.filter_map, List.map_map]
  rfl

/-- The nodes that the call of `scxExecute` names. -/
theorem Attempt.request_nodes (w : Attempt K) (u : Update K) : (w.request u).nodes = w.nodes := by
  rw [Request.nodes, Attempt.request, List.map_map]
  rfl

theorem Attempt.request_finalized (w : Attempt K) (u : Update K) :
    (w.request u).finalized = w.finalized := by
  rw [Request.finalized, Attempt.request, List.filter_map, List.map_map]
  rfl

end

end Current

/-! ## Operations -/

section Leaf

variable {b : Nat} {h : Heap K} {lab : Labels K} {c : Cursor} {ln : Node K} {op : Op K}
  {linked : List (Link × Nat)}

/-- The place of an operation: the leaf `c.l` under `c.p`. -/
structure LeafSite (b : Nat) (h : Heap K) (lab : Labels K) (c : Cursor) (ln : Node K)
    (key : K) : Prop where
  labelled : Labelled b h lab
  p_member : h.Member c.p
  l_child : h.child c.p c.ixToL = some c.l
  l_node : h.node c.l = some ln
  leaf : ln.leaf = true
  range : key ∈ (lab c.l).range

theorem LeafSite.content_eq {key : K} (S : LeafSite b h lab c ln key) :
    h.content key = ln.value key := by
  have hkid := List.mem_of_getElem? (Heap.child_eq_some.mp S.l_child)
  exact S.labelled.content_eq
    (S.labelled.endsAt_of_member S.l_node S.leaf (S.p_member.tail hkid) S.range)

omit [LinearOrder K] in
theorem opLinks_nodes (hlinks : linked.map Prod.fst = opLinks c) (op : Op K) :
    (⟨.op op, c, none, linked, []⟩ : Attempt K).nodes = [c.p]
    ∧ (⟨.op op, c, none, linked, []⟩ : Attempt K).finalized = [] := by
  rw [Attempt.nodes_eq, Attempt.finalized_eq, hlinks]
  exact ⟨rfl, rfl⟩

/-- One leaf takes the place of another. -/
theorem LeafSite.commit {key : K} (S : LeafSite b h lab c ln key) {n : Node K} {v : Option Nat}
    (N : LeafStep b ln n key v) (hlinks : linked.map Prod.fst = opLinks c) {r : Result}
    (hop : (dictionary K).apply h.content op = (Function.update h.content key v, r)) :
    ∃ old top labs, Commit b h lab ⟨.op op, c, none, linked, []⟩
      ⟨c.p, c.ixToL, c.l, h.length, [n], [c.l], [.degree h.length], some r⟩ old top labs := by
  obtain ⟨hnodes, hfin⟩ := opLinks_nodes hlinks op
  have F : Fits b h lab [c.p] [] c.p c.ixToL c.l 0 [n] [c.l]
      [⟨(lab c.l).range, 0, (lab c.l).pos⟩] :=
    fits_leaf S.labelled S.p_member S.l_child S.l_node S.leaf (by simp) S.range N
  refine ⟨c.l, 0, _,
    { fits := by rw [hnodes, hfin]; exact F
      old_eq := rfl
      new_eq := rfl
      nodup := List.nodup_singleton _
      held := fun x hx => Or.inr (Or.inl (List.mem_singleton.mp hx))
      viol := fun v hv => by cases hv
      calls := fun f hf => ⟨0, by simp, by rw [List.mem_singleton.mp hf]; rfl⟩
      zero := ?_
      effect := ?_
      keep := fun f hf => by cases hf }⟩
  · intro i m hm hw
    obtain ⟨rfl, rfl⟩ := getElem?_one hm
    rw [N.ok.leaf_weight N.leaf] at hw
    cases hw
  · rintro op' ⟨rfl⟩
    refine ⟨r, rfl, ?_⟩
    rw [hop, hnodes, hfin]
    exact congrArg (·, r)
      (F.content_update S.labelled S.l_node S.leaf S.range (leafStep_values S.l_node N _)).symm

/-- Two leaves under a new parent take the place of a leaf. -/
theorem LeafSite.commit_overflow {key : K} (S : LeafSite b h lab c ln key) (hb : 2 ≤ b)
    {lo hi : Node K} {mid : K} {v : Nat} (hmid : mid = key ∨ mid ∈ ln.keys)
    (Slo : HalfStep b ln lo key v (Set.Iio mid)) (Shi : HalfStep b ln hi key v (Set.Ici mid))
    (hlinks : linked.map Prod.fst = opLinks c) {r : Result}
    (hop : (dictionary K).apply h.content op = (Function.update h.content key (some v), r)) :
    ∃ old top labs, Commit b h lab ⟨.op op, c, none, linked, []⟩
      ⟨c.p, c.ixToL, c.l, h.length + 2,
        [lo, hi, pairNode (decide (c.p = entry)) mid h.length (h.length + 1)], [c.l],
        [.weight (h.length + 2)], some r⟩ old top labs := by
  obtain ⟨hnodes, hfin⟩ := opLinks_nodes hlinks op
  have F := fits_overflow (V := [c.p]) S.labelled hb S.p_member S.l_child S.l_node S.leaf
    (by simp) S.range hmid Slo Shi
  refine ⟨c.l, 2, _,
    { fits := by rw [hnodes, hfin]; exact F
      old_eq := rfl
      new_eq := rfl
      nodup := List.nodup_singleton _
      held := fun x hx => Or.inr (Or.inl (List.mem_singleton.mp hx))
      viol := fun v hv => by cases hv
      calls := fun f hf => ⟨2, by simp, by rw [List.mem_singleton.mp hf]; rfl⟩
      zero := ?_
      effect := ?_
      keep := fun f hf => by cases hf }⟩
  · intro i m hm hw
    rcases getElem?_three hm with ⟨rfl, rfl⟩ | ⟨rfl, rfl⟩ | ⟨rfl, rfl⟩
    · rw [Slo.ok.leaf_weight Slo.leaf] at hw
      cases hw
    · rw [Shi.ok.leaf_weight Shi.leaf] at hw
      cases hw
    · exact List.mem_singleton_self _
  · rintro op' ⟨rfl⟩
    refine ⟨r, rfl, ?_⟩
    rw [hop, hnodes, hfin]
    exact congrArg (·, r)
      (F.content_update S.labelled S.l_node S.leaf S.range (overflow_values S.l_node Slo Shi)).symm

/-- The value of a key that the leaf has. -/
theorem NodeOk.exists_value {n : Node K} (hn : NodeOk b n) (hleaf : n.leaf = true) {key : K}
    (hk : n.hasKey key = true) :
    ∃ v, n.ptrs[n.getKeyIndex key]? = some v ∧ n.value key = some v := by
  have hlt : n.getKeyIndex key < n.getKeyCount := by
    simp only [Node.hasKey, Bool.and_eq_true, decide_eq_true_eq] at hk
    exact hk.1
  rw [Node.getKeyCount_leaf hleaf, ← hn.ptrs_length] at hlt
  have hget := List.getElem?_eq_getElem hlt
  exact ⟨_, hget, by rw [Node.value, if_pos hk, hget]⟩

theorem Node.value_none {n : Node K} {key : K} (hk : ¬ n.hasKey key = true) :
    n.value key = none := if_neg hk

/-- **The SCX of an operation.** -/
theorem LeafSite.commit_op (S : LeafSite b h lab c ln op.key) (hb : 3 ≤ b) (hup : op.Updates ln)
    (hlinks : linked.map Prod.fst = opLinks c) {u : Update K}
    (hu : build b h ⟨.op op, c, none, linked, []⟩ = some u) :
    ∃ old top labs, Commit b h lab ⟨.op op, c, none, linked, []⟩ u old top labs := by
  have hok := S.labelled.node_ok c.l ln S.l_node
  have hcontent := S.content_eq
  simp only [build, S.l_node, Option.bind_eq_bind, Option.bind_some] at hu
  cases op with
  | find key => cases hu
  | insert key value replace =>
      simp only [Op.key] at S hcontent
      by_cases hk : ln.hasKey key = true
      · obtain ⟨old, hptr, hval⟩ := hok.exists_value S.leaf hk
        have hrep : replace = true := hup hk
        simp only [buildInsert, hk, if_true, hptr, Option.bind_eq_bind, Option.bind_some,
          Option.some.injEq] at hu
        subst hu
        refine S.commit (replaceValue_step hok S.leaf ((hok.hasKey_iff S.leaf key).mp hk) value)
          hlinks ?_
        simp [dictionary, hcontent, hval, hrep]
      · have hval := Node.value_none hk
        have hnot : key ∉ ln.keys := fun hm => hk ((hok.hasKey_iff S.leaf key).mpr hm)
        have happly : (dictionary K).apply h.content (.insert key value replace)
            = (Function.update h.content key (some value), .value noValue) := by
          simp [dictionary, hcontent, hval]
        simp only [buildInsert, hk, if_false, Bool.false_eq_true] at hu
        by_cases hroom : ln.getKeyCount < b
        · simp only [hroom, if_true, Option.some.injEq] at hu
          subst hu
          exact S.commit (insertPair_step hok S.leaf hnot hroom value) hlinks happly
        · obtain ⟨lo, hi, mid, heq, hmid, Slo, Shi⟩ := overflow_step (by omega) hok S.leaf hnot
            hroom value h.length (h.length + 1) (decide (c.p = entry))
          simp only [hroom, if_false, heq, Option.bind_eq_bind, Option.bind_some,
            Option.some.injEq] at hu
          subst hu
          exact S.commit_overflow (by omega) hmid Slo Shi hlinks happly
  | erase key =>
      simp only [Op.key] at S hcontent
      have hk : ln.hasKey key = true := hup
      obtain ⟨old, hptr, hval⟩ := hok.exists_value S.leaf hk
      obtain ⟨n, hn, N⟩ := eraseKey_step hok S.leaf ((hok.hasKey_iff S.leaf key).mp hk)
      simp only [buildErase, hn, hptr, Option.bind_eq_bind, Option.bind_some,
        Option.some.injEq] at hu
      subst hu
      refine S.commit N hlinks ?_
      simp [dictionary, hcontent, hval]

end Leaf

/-! ## The weights of the new nodes

All but the parent of two halves have weight one. -/

section

omit [LinearOrder K]

theorem absorb_weight {p l n : Node K} {i : Nat} (hn : absorb p l i = some n) :
    n.weight = true := by
  simp only [absorb, Option.bind_eq_bind, Option.bind_eq_some_iff] at hn
  obtain ⟨_, -, hn⟩ := hn
  split at hn
  · cases hn
  · cases hn
    rfl

theorem split_weight {p l lo hi n : Node K} {i left right : Nat} {root : Bool}
    (hn : split p l i left right root = some (lo, hi, n)) :
    lo.weight = true ∧ hi.weight = true := by
  simp only [split, Option.bind_eq_bind, Option.bind_eq_some_iff] at hn
  obtain ⟨_, -, _, -, _, -, hn⟩ := hn
  split at hn
  · cases hn
  · cases hn
    exact ⟨rfl, rfl⟩

theorem absorbSibling_weight {p left right n : Node K} {i : Nat} {key : K}
    (hn : absorbSibling p left right i key = some n) : n.weight = true := by
  simp only [absorbSibling, Option.bind_eq_bind, Option.bind_eq_some_iff] at hn
  obtain ⟨_, -, hn⟩ := hn
  split at hn
  · cases hn
  · cases hn
    rfl

theorem distribute_weight {p left right n l r : Node K} {i j newleft newright : Nat}
    (hn : distribute p left right i j newleft newright = some (n, l, r)) :
    n.weight = true ∧ l.weight = true ∧ r.weight = true := by
  simp only [distribute, Option.bind_eq_bind, Option.bind_eq_some_iff] at hn
  obtain ⟨_, -, _, -, _, -, _, -, hn⟩ := hn
  cases hn
  exact ⟨rfl, rfl, rfl⟩

end

/-! ## Weight violations -/

section Weight

variable {b : Nat} {h : Heap K} {lab : Labels K} {g ix : Nat} {c : Cursor} {pn ln : Node K}
  {linked : List (Link × Nat)}

/-- **The SCX of `fixWeightViolation`.** -/
theorem WeightSite.commit (S : WeightSite b h lab g ix c.p c.ixToL c.l pn ln) (hb : 3 ≤ b)
    (habove : c.above = some (g, ix))
    (hlinks : linked.map Prod.fst = fixPair c g ix ++ [⟨c.l, none, true⟩]) {u : Update K}
    (hu : build b h ⟨.fix (.weight c.l), c, none, linked, []⟩ = some u) :
    ∃ old top labs, Commit b h lab ⟨.fix (.weight c.l), c, none, linked, []⟩ u old top labs := by
  have hnodes : (⟨.fix (.weight c.l), c, none, linked, []⟩ : Attempt K).nodes = [g, c.p, c.l] := by
    rw [Attempt.nodes_eq, hlinks]
    rfl
  have hfin : (⟨.fix (.weight c.l), c, none, linked, []⟩ : Attempt K).finalized = [c.p, c.l] := by
    rw [Attempt.finalized_eq, hlinks]
    rfl
  have hne : c.p ≠ c.l := fun he => by
    have := S.labelled.kid_pos S.l_kid
    rw [he] at this
    exact lt_irrefl _ this
  have hheld : ∀ x ∈ [c.p, c.l], x = c.p ∨ x = c.l ∨ (none : Option Nat) = some x := by
    intro x hx
    simp only [List.mem_cons, List.not_mem_nil, or_false] at hx
    tauto
  simp only [build, S.l_node, S.p_node, buildWeight, habove, Option.bind_eq_bind,
    Option.bind_some] at hu
  by_cases hsize : pn.getABDegree + ln.getABDegree - 1 ≤ b
  · obtain ⟨n, hn, F⟩ := S.absorb_fits hsize (V := [g, c.p, c.l]) (fun x hx => hx)
    simp only [hsize, if_true, hn, Option.bind_some, Option.some.injEq] at hu
    subst hu
    exact ⟨c.p, 0, _,
      { fits := by rw [hnodes, hfin]; exact F
        old_eq := rfl
        new_eq := rfl
        nodup := by simp [hne]
        held := hheld
        viol := fun v hv => by cases hv; exact List.mem_cons_of_mem _ (List.mem_singleton_self _)
        calls := fun f hf => ⟨0, by simp, by rw [List.mem_singleton.mp hf]; rfl⟩
        zero := fun i m hm hmw => by
          obtain ⟨rfl, rfl⟩ := getElem?_one hm
          rw [absorb_weight hn] at hmw
          cases hmw
        effect := fun op hop => by cases hop
        keep := fun f _ => ⟨rfl, by
          rw [hnodes, hfin]
          exact F.content_eq S.labelled (S.values _ _)⟩ }⟩
  · obtain ⟨left, right, mid, pos, hn, F⟩ := S.split_fits hb hsize (V := [g, c.p, c.l])
      (fun x hx => hx)
    simp only [hsize, if_false, hn, Option.bind_some, Option.some.injEq] at hu
    subst hu
    exact ⟨c.p, 2, _,
      { fits := by rw [hnodes, hfin]; exact F
        old_eq := rfl
        new_eq := rfl
        nodup := by simp [hne]
        held := hheld
        viol := fun v hv => by cases hv; exact List.mem_cons_of_mem _ (List.mem_singleton_self _)
        calls := fun f hf => ⟨2, by simp, by
          simp only [List.mem_cons, List.not_mem_nil, or_false] at hf
          rcases hf with rfl | rfl <;> rfl⟩
        zero := fun i m hm hmw => by
          rcases getElem?_three hm with ⟨rfl, rfl⟩ | ⟨rfl, rfl⟩ | ⟨rfl, rfl⟩
          · rw [(split_weight hn).1] at hmw
            cases hmw
          · rw [(split_weight hn).2] at hmw
            cases hmw
          · simp
        effect := fun op hop => by cases hop
        keep := fun f _ => ⟨rfl, by
          rw [hnodes, hfin]
          exact F.content_eq S.labelled (S.values _ _)⟩ }⟩

end Weight

/-! ## Degree violations -/

section Degree

variable {b : Nat} {h : Heap K} {lab : Labels K} {g ix i x y s : Nat} {c : Cursor}
  {pn xn yn : Node K} {linked : List (Link × Nat)} {u : Update K} {key : K}

/-- **The SCX of `fixDegreeViolation`**: `x` and `y` are `c.l` and the sibling `s` in the order in
which they stand under the parent. -/
theorem DegreeSite.commit (S : DegreeSite b h lab g ix c.p i x y pn xn yn) (hb : 3 ≤ b)
    (hpair : (x = c.l ∧ y = s ∧ c.ixToL = i ∧ ixToS c.ixToL = i + 1)
      ∨ (x = s ∧ y = c.l ∧ c.ixToL = i + 1 ∧ ixToS c.ixToL = i))
    (hkey : key ∈ (lab x).range ∨ key ∈ (lab y).range) (hdeg : 2 ≤ pn.size)
    (hlinks : linked.map Prod.fst = fixPair c g ix
      ++ if xn.leaf then [] else [⟨x, none, true⟩, ⟨y, none, true⟩])
    (hu : buildSiblings b c g ix s pn xn yn i (i + 1) key h.length = some u) :
    ∃ old top labs,
      Commit b h lab ⟨.fix (.degree c.l), c, some s, linked, []⟩ u old top labs := by
  generalize hw : (⟨.fix (.degree c.l), c, some s, linked, []⟩ : Attempt K) = w
  have hwp : w.cur = c ∧ w.sibling = some s ∧ w.task = .fix (.degree c.l)
      ∧ w.linked = linked := by
    rw [← hw]
    exact ⟨rfl, rfl, rfl, rfl⟩
  obtain ⟨hcur, hsib, htask, hlinked⟩ := hwp
  have hV : g ∈ w.nodes ∧ w.finalized ⊆ w.nodes := by
    rw [Attempt.nodes_eq, Attempt.finalized_eq, hlinked, hlinks]
    refine ⟨by simp [fixPair], ?_⟩
    exact List.map_subset _ (List.filter_subset_self _)
  have hrem : Removed c.p x y xn.leaf [c.p, c.l, s] w.finalized := by
    refine ⟨fun e => ?_, fun e => ?_⟩
    · simp only [List.mem_cons, List.not_mem_nil, or_false]
      rcases hpair with ⟨rfl, rfl, -⟩ | ⟨rfl, rfl, -⟩ <;> tauto
    · rw [Attempt.finalized_eq, hlinked, hlinks]
      cases xn.leaf <;> simp [fixPair]
  have hnodup : [c.p, c.l, s].Nodup := by
    have hpx : c.p ≠ x := fun he => lt_irrefl _ (he ▸ S.labelled.kid_pos S.c_kid)
    have hpy : c.p ≠ y := fun he => lt_irrefl _ (he ▸ S.labelled.kid_pos S.d_kid)
    have hxy : x ≠ y := by
      rintro rfl
      have := (S.labelled.ranged.parent_unique S.p_member S.p_member
        (Heap.child_eq_some.mp S.c_child) (Heap.child_eq_some.mp S.d_child)).2
      omega
    rcases hpair with ⟨rfl, rfl, -⟩ | ⟨rfl, rfl, -⟩
    · simp [hpx, hpy, hxy]
    · simp [hpx, hpy, hxy.symm]
  have hheld : ∀ e ∈ [c.p, c.l, s], e = w.cur.p ∨ e = w.cur.l ∨ w.sibling = some e := by
    intro e he
    simp only [List.mem_cons, List.not_mem_nil, or_false] at he
    rw [hcur, hsib, Option.some.injEq]
    tauto
  have hviol : ∀ v, w.task.viol = some v → v ∈ [c.p, c.l, s] := by
    intro v hv
    rw [htask] at hv
    cases hv
    exact List.mem_cons_of_mem _ List.mem_cons_self
  have heffect : ∀ op, w.task = .op op → ∀ P : Prop, P := by
    intro op hop
    rw [htask] at hop
    cases hop
  have hix : (c.ixToL = i ∧ ixToS c.ixToL = i + 1) ∨ (c.ixToL = i + 1 ∧ ixToS c.ixToL = i) :=
    hpair.imp (fun hp => hp.2.2) fun hp => hp.2.2
  simp only [buildSiblings, S.c_weight, S.d_weight, Bool.and_self, Bool.not_true,
    Bool.false_eq_true, if_false] at hu
  by_cases hsz : xn.getABDegree + yn.getABDegree < 2 * minDegree b
  · simp only [hsz, if_true] at hu
    by_cases hroot : g = entry ∧ pn.getABDegree = 2
    · obtain ⟨rfl, hsize⟩ := hroot
      obtain ⟨n, labs, hn, F, hvals⟩ := S.absorbRoot_fits hb hsz hsize hkey hrem hV
      simp only [hn, Option.bind_eq_bind, Option.bind_some, hsize, and_self, if_true,
        Option.some.injEq] at hu
      subst hu
      exact ⟨c.p, 0, labs,
        { fits := F
          old_eq := rfl
          new_eq := rfl
          nodup := hnodup
          held := hheld
          viol := hviol
          calls := fun f hf => ⟨0, by simp, by rw [List.mem_singleton.mp hf]; rfl⟩
          zero := fun j m hm hmw => by
            obtain ⟨rfl, rfl⟩ := getElem?_one hm
            rw [absorbSibling_weight hn] at hmw
            cases hmw
          effect := fun op hop => heffect op hop _
          keep := fun f _ => ⟨rfl, F.content_eq S.labelled hvals⟩ }⟩
    · obtain ⟨n, labs, hn, F, hvals⟩ := S.absorbSibling_fits hb hsz hdeg hkey hix hrem hV
      simp only [hn, Option.bind_eq_bind, Option.bind_some, hroot, if_false] at hu
      split at hu
      · -- the assertion holds, as the parent of two children has a parent itself
        rename_i hassert
        simp only [Bool.not_eq_true', Bool.or_eq_false_iff, decide_eq_false_iff_not,
          not_not] at hassert
        have hle : ¬ pn.size > 2 := hassert.2
        have hsize : pn.size = 2 := by omega
        exact absurd ⟨hassert.1, hsize⟩ hroot
      cases hu
      exact ⟨c.p, 1, labs,
        { fits := F
          old_eq := rfl
          new_eq := rfl
          nodup := hnodup
          held := hheld
          viol := hviol
          calls := fun f hf => by
            simp only [List.mem_cons, List.not_mem_nil, or_false] at hf
            rcases hf with rfl | rfl
            · exact ⟨0, by simp, rfl⟩
            · exact ⟨1, by simp, rfl⟩
          zero := fun j m hm hmw => by
            rcases getElem?_two hm with ⟨rfl, rfl⟩ | ⟨rfl, rfl⟩
            · rw [absorbSibling_weight hn] at hmw
              cases hmw
            · cases hmw
          effect := fun op hop => heffect op hop _
          keep := fun f _ => ⟨rfl, F.content_eq S.labelled hvals⟩ }⟩
  · obtain ⟨n, l, r, labs, hn, F, hvals⟩ := S.distribute_fits hsz hrem hV
    obtain ⟨hnw, hlw, hrw⟩ := distribute_weight hn
    simp only [hsz, if_false, hn, Option.bind_eq_bind, Option.bind_some,
      Option.some.injEq] at hu
    subst hu
    exact ⟨c.p, 0, labs,
      { fits := F
        old_eq := rfl
        new_eq := rfl
        nodup := hnodup
        held := hheld
        viol := hviol
        calls := fun f hf => ⟨0, by simp, by rw [List.mem_singleton.mp hf]; rfl⟩
        zero := fun j m hm hmw => by
          rcases getElem?_three hm with ⟨rfl, rfl⟩ | ⟨rfl, rfl⟩ | ⟨rfl, rfl⟩
          · rw [hnw] at hmw
            cases hmw
          · rw [hlw] at hmw
            cases hmw
          · rw [hrw] at hmw
            cases hmw
        effect := fun op hop => heffect op hop _
        keep := fun f _ => ⟨rfl, F.content_eq S.labelled hvals⟩ }⟩

end Degree

/-! ## All updates -/

section Attempt

variable {b : Nat} {h : Heap K} {lab : Labels K} {w : Attempt K}

theorem ixToS_cases (i : Nat) :
    (i < ixToS i ∧ ixToS i = i + 1) ∨ (¬ i < ixToS i ∧ i = ixToS i + 1) := by
  unfold ixToS
  split <;> omega

/-- **The SCX of an attempt**, when all handles are current. -/
theorem AttemptOk.commit (hb : 3 ≤ b) (L : Labelled b h lab) (A : AttemptOk h lab w)
    (htodo : w.todo = []) (hsib : w.sibling = none → ∀ v, w.task ≠ .fix (.degree v))
    {u : Update K} (hu : build b h w = some u)
    (hcur : ∀ e ∈ w.linked, h.Current e.1.node e.2) :
    ∃ old top labs, Commit b h lab w u old top labs := by
  obtain ⟨key, hkey, C⟩ := A.cursor
  obtain ⟨pn, hpn, hpl, -⟩ := C.parent
  have P := A.plan
  cases P with
  | @op op c ln linked todo hl hleaf hup hlinks =>
      obtain rfl : todo = [] := htodo
      obtain rfl : op.key = key := hkey
      rw [List.append_nil] at hlinks
      obtain ⟨hpm, hchild⟩ := A.checked L hcur c.p c.ixToL c.l false
        (by rw [hlinks]; exact List.mem_singleton_self _) hpn hpl
      exact LeafSite.commit_op ⟨L, hpm, hchild, hl, hleaf, C.range⟩ hb hup hlinks hu
  | @weight c g ix p linked todo habove hp hw hlinks =>
      obtain rfl : todo = [] := htodo
      rw [List.append_nil] at hlinks
      obtain ⟨-, gn, hgn, hgl, -⟩ := C.above g ix habove
      obtain ⟨hgm, hpc⟩ := A.checked L hcur g ix c.p false
        (by rw [hlinks]; simp [fixPair]) hgn hgl
      obtain ⟨-, hlc⟩ := A.checked L hcur c.p c.ixToL c.l true
        (by rw [hlinks]; simp [fixPair]) hpn hpl
      obtain ⟨ln, hl, hlw⟩ := A.active _ rfl
      exact WeightSite.commit ⟨L, hgm, hpc, hlc, hp, hl, hw, hlw⟩ hb habove hlinks hu
  | degree => exact absurd rfl (hsib rfl _)
  | @sibling c g ix s info p l sn linked todo habove S hinfo hlinks =>
      obtain rfl : todo = [] := htodo
      obtain rfl : pn = p := Option.some.inj (hpn.symm.trans S.p_node)
      rw [List.append_nil] at hlinks
      obtain ⟨-, gn, hgn, hgl, -⟩ := C.above g ix habove
      obtain ⟨hgm, hpc⟩ := A.checked L hcur g ix c.p false
        (by rw [hlinks]; simp [fixPair]) hgn hgl
      obtain ⟨-, hlc⟩ := A.checked L hcur c.p c.ixToL c.l true
        (by rw [hlinks]; simp [fixPair]) hpn hpl
      have hsc : h.child c.p (ixToS c.ixToL) = some s := by
        obtain ⟨x, hx, hptr⟩ := S.pointer.of_current (hcur _ hinfo)
        have hxn : h.node c.p = some x.node := Heap.node_eq_some.mpr ⟨x, hx, rfl⟩
        obtain rfl := Option.some.inj (hpn.symm.trans hxn)
        exact Heap.child_of_ptrs hpn hpl hptr
      have hsearch := (L.node_at c.l l S.l_node).search_mem
      simp only [build, S.l_node, S.p_node, S.s_node, buildDegree, habove, Option.bind_eq_bind,
        Option.bind_some] at hu
      rcases ixToS_cases c.ixToL with ⟨hlt, hix⟩ | ⟨hlt, hix⟩
      · simp only [hlt, if_true] at hu
        rw [hix] at hu hsc
        rw [siblingLinks, if_pos hlt] at hlinks
        exact DegreeSite.commit
          ⟨L, hgm, hpc, hlc, hsc, hpn, S.l_node, S.s_node, S.p_weight, S.l_weight, S.s_weight⟩ hb
          (Or.inl ⟨rfl, rfl, rfl, hix⟩) (Or.inl hsearch) S.two hlinks hu
      · simp only [hlt, if_false] at hu
        rw [siblingLinks, if_neg hlt, ← S.leaf_eq] at hlinks
        have hlc' : h.child c.p (ixToS c.ixToL + 1) = some c.l := by rwa [← hix]
        have hu' : buildSiblings b c g ix s pn sn l (ixToS c.ixToL) (ixToS c.ixToL + 1)
            l.searchKey h.length = some u := by rwa [← hix]
        exact DegreeSite.commit
          ⟨L, hgm, hpc, hsc, hlc', hpn, S.s_node, S.l_node, S.p_weight, S.s_weight, S.l_weight⟩ hb
          (Or.inr ⟨rfl, rfl, hix, rfl⟩) (Or.inr hsearch) S.two hlinks hu'

/-- **What an attempt makes of the heap** when the provider carries out its SCX. -/
theorem AttemptOk.committed (hb : 3 ≤ b) (L : Labelled b h lab) (A : AttemptOk h lab w)
    (htodo : w.todo = []) (hsib : w.sibling = none → ∀ v, w.task ≠ .fix (.degree v))
    {u : Update K} (hu : build b h w = some u) {h' : Heap K}
    (X : Committed h (w.request u) h') : ∃ old top labs, Commit b h lab w u old top labs
      ∧ h' ++ u.news.map Cell.fresh = h.change w.nodes w.finalized u.g u.ix u.new u.news := by
  have hcur : ∀ e ∈ w.linked, h.Current e.1.node e.2 := fun e he =>
    X.current ⟨e.1.node, e.2, e.1.finalize⟩ (List.mem_map_of_mem he)
  obtain ⟨old, top, labs, C⟩ := A.commit hb L htodo hsib hu hcur
  have hold : h.child u.g u.ix = some u.old := C.old_eq ▸ C.fits.old_kid
  refine ⟨old, top, labs, C, ?_⟩
  rw [← w.request_nodes u, ← w.request_finalized u]
  exact X.append_eq hold

end Attempt

/-! ## Building never fails -/

section Build

variable {b : Nat} {p l left right : Node K} {i : Nat}

end Build

end Pacer.Abtree
