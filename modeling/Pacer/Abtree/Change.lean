import Pacer.Abtree.Invariant
import Mathlib.Algebra.Order.Field.Basic
import Mathlib.Algebra.Order.Field.Rat

set_option autoImplicit false

/-! # What one SCX does to the tree

An SCX swings the pointer `ix` of a member `g` from `old` to `new` and publishes the nodes `news`.
`Fits` collects what has to be checked of the new nodes and their labels; it is about the nodes in
the place of the change only. From it follow that the heap stays labelled (`Fits.labelled`), what
its members are afterwards (`Fits.member_iff`), and all that the other threads rely on (`Grows`).
-/

namespace Pacer.Abtree

open Separators RangeGraph

variable {K : Type} [LinearOrder K]

/-! ## The heap after an SCX -/

/-- The heap `h` after an SCX linked to `V` that finalizes `R` and swings the pointer `ix` of `g`
to `new`, with the nodes `news` published. -/
def Heap.change (h : Heap K) (V R : List Nat) (g ix new : Nat) (news : List (Node K)) : Heap K :=
  (h.mapIdx fun x c =>
    { node := if x = g then { c.node with ptrs := c.node.ptrs.set ix new } else c.node
      marked := c.marked || decide (x ∈ R)
      info := if x ∈ V then c.info + 1 else c.info })
  ++ news.map Cell.fresh

section Change

variable {h h' : Heap K} {V R : List Nat} {g ix new : Nat} {news : List (Node K)}

section

omit [LinearOrder K]

/-- What the provider promises of an SCX that finds the pointer as it was read. -/
theorem Committed.append_eq {r : Request} (C : Committed h r h')
    (hold : h.child r.g r.ix = some r.old) :
    h' ++ news.map Cell.fresh = h.change r.nodes r.finalized r.g r.ix r.new news := by
  rw [C.eq_commit, Heap.commit, Heap.change]
  congr 1
  refine List.ext_getElem? fun x => ?_
  rw [List.getElem?_mapIdx, List.getElem?_mapIdx]
  cases hc : h[x]? with
  | none => rfl
  | some c =>
      have hswing : x = r.g → r.swing c.node
          = { c.node with ptrs := c.node.ptrs.set r.ix r.new } := by
        rintro rfl
        rw [Heap.child, Heap.node, hc] at hold
        simp only [Option.map_some, Option.bind_eq_bind, Option.bind_some] at hold
        split at hold
        · cases hold
        · exact if_pos hold
      rw [Option.map_some, Option.map_some]
      split
      · rename_i hx
        rw [hswing hx]
      · rfl

theorem Heap.change_length : (h.change V R g ix new news).length = h.length + news.length := by
  simp [Heap.change]

theorem Heap.change_old {x : Nat} {c : Cell K} (hx : h[x]? = some c) :
    (h.change V R g ix new news)[x]? = some
      { node := if x = g then { c.node with ptrs := c.node.ptrs.set ix new } else c.node
        marked := c.marked || decide (x ∈ R)
        info := if x ∈ V then c.info + 1 else c.info } := by
  have hlt := (List.getElem?_eq_some_iff.mp hx).1
  rw [Heap.change, List.getElem?_append_left (by simpa using hlt), List.getElem?_mapIdx, hx]
  rfl

theorem Heap.change_new (i : Nat) : (h.change V R g ix new news)[h.length + i]?
    = (news[i]?).map Cell.fresh := by
  rw [Heap.change, List.getElem?_append_right (by simp), List.getElem?_map]
  simp

theorem Heap.change_node_old {x : Nat} {n : Node K} (hx : h.node x = some n) :
    (h.change V R g ix new news).node x
      = some (if x = g then { n with ptrs := n.ptrs.set ix new } else n) := by
  obtain ⟨c, hc, rfl⟩ := Heap.node_eq_some.mp hx
  rw [Heap.node, Heap.change_old hc]
  rfl

theorem Heap.change_node_new (i : Nat) :
    (h.change V R g ix new news).node (h.length + i) = news[i]? := by
  rw [Heap.node, Heap.change_new, Option.map_map]
  simp [Function.comp_def]

/-- A node after the SCX was there before it or is new. -/
theorem Heap.change_node_cases {x : Nat} {n' : Node K}
    (hx : (h.change V R g ix new news).node x = some n') :
    (∃ n, h.node x = some n ∧ n' = if x = g then { n with ptrs := n.ptrs.set ix new } else n)
      ∨ ∃ i, x = h.length + i ∧ news[i]? = some n' := by
  by_cases hlt : x < h.length
  · obtain ⟨n, hn⟩ := Heap.exists_node hlt
    rw [Heap.change_node_old hn, Option.some.injEq] at hx
    exact Or.inl ⟨n, hn, hx.symm⟩
  · obtain ⟨i, rfl⟩ := Nat.exists_eq_add_of_le (Nat.le_of_not_lt hlt)
    rw [Heap.change_node_new] at hx
    exact Or.inr ⟨i, rfl, hx⟩

theorem Heap.change_weight {x : Nat} (hx : x < h.length) :
    (h.change V R g ix new news).weight x = h.weight x := by
  obtain ⟨n, hn⟩ := Heap.exists_node hx
  rw [Heap.weight_eq (Heap.change_node_old hn), Heap.weight_eq hn]
  by_cases hxg : x = g <;> simp [hxg]

theorem Heap.change_weight_new {i : Nat} {n : Node K} (hn : news[i]? = some n) :
    (h.change V R g ix new news).weight (h.length + i) = if n.weight then 1 else 0 :=
  Heap.weight_eq (by rw [Heap.change_node_new, hn])

theorem Heap.change_weight_one {i : Nat} {n : Node K} (hn : news[i]? = some n)
    (hw : n.weight = true) : (h.change V R g ix new news).weight (h.length + i) = 1 := by
  rw [Heap.change_weight_new hn, if_pos hw]

theorem Heap.change_weight_head {n : Node K} {rest : List (Node K)} (hw : n.weight = true) :
    (h.change V R g ix new (n :: rest)).weight h.length = 1 :=
  Heap.change_weight_one (i := 0) rfl hw

end

theorem Heap.change_kids_ne {x : Nat} (hx : x < h.length) (hne : x ≠ g) :
    (h.change V R g ix new news).graph.kids x = h.graph.kids x := by
  obtain ⟨n, hn⟩ := Heap.exists_node hx
  have hn' : (h.change V R g ix new news).node x = some n := by
    rw [Heap.change_node_old hn, if_neg hne]
  rw [Heap.graph_kids hn, Heap.graph_kids hn']

theorem Heap.change_kids_self {n : Node K} (hn : h.node g = some n) (hinner : n.leaf = false) :
    (h.change V R g ix new news).graph.kids g = (h.graph.kids g).set ix new := by
  have hn' : (h.change V R g ix new news).node g
      = some (if g = g then { n with ptrs := n.ptrs.set ix new } else n) := Heap.change_node_old hn
  rw [if_pos rfl] at hn'
  rw [Heap.graph_kids hn', Heap.graph_kids hn, Node.kids_inner hinner]
  exact Node.kids_inner hinner

theorem Heap.change_kids_new {i : Nat} {n : Node K} (hn : news[i]? = some n) :
    (h.change V R g ix new news).graph.kids (h.length + i) = n.kids :=
  Heap.graph_kids (by rw [Heap.change_node_new, hn])

theorem Heap.change_dir {x : Nat} (hx : x < h.length) (key : K) :
    (h.change V R g ix new news).graph.dir key x = h.graph.dir key x := by
  obtain ⟨n, hn⟩ := Heap.exists_node hx
  rw [Heap.graph_dir hn, Heap.graph_dir (Heap.change_node_old hn)]
  split <;> rfl

end Change

/-- The labels when the nodes after `h` get the labels `labs`. -/
def Labels.extend (lab : Labels K) (h : Heap K) (labs : List (Label K)) : Labels K :=
  fun x => if x < h.length then lab x else (labs[x - h.length]?).getD (lab x)

omit [LinearOrder K] in
theorem Labels.extend_old {lab : Labels K} {h : Heap K} {labs : List (Label K)} {x : Nat}
    (hx : x < h.length) : lab.extend h labs x = lab x := if_pos hx

omit [LinearOrder K] in
theorem Labels.extend_new {lab : Labels K} {h : Heap K} {labs : List (Label K)} {i : Nat}
    {l : Label K} (hl : labs[i]? = some l) : lab.extend h labs (h.length + i) = l := by
  simp [Labels.extend, hl]

/-! ## A change that fits -/

/-- The conditions on a change. The new nodes stand at the addresses from `h.length` on, `new` is
the one with index `top` among them, and `rem` are the nodes that are removed: `old` and some of
its children. -/
structure Fits (b : Nat) (h : Heap K) (lab : Labels K) (V R : List Nat) (g ix old top : Nat)
    (news : List (Node K)) (rem : List Nat) (labs : List (Label K)) : Prop where
  member : h.Member g
  old_kid : h.child g ix = some old
  old_mem : old ∈ rem
  rem_kid : ∀ r ∈ rem, r = old ∨ r ∈ h.graph.kids old
  finalized : ∀ x n, h.node x = some n → (x ∈ R ↔ x ∈ rem ∧ n.leaf = false)
  frozen : g ∈ V ∧ R ⊆ V
  labs_length : labs.length = news.length
  exists_top : ∃ (n : Node K) (l : Label K), news[top]? = some n ∧ labs[top]? = some l
    ∧ (∀ i < news.length, i = top ∨ h.length + i ∈ n.kids)
    ∧ l.range = (lab old).range ∧ (lab g).pos < l.pos
    ∧ (g ≠ entry → l.level + (if n.weight then 1 else 0) = (lab old).level + h.weight old)
    ∧ (g = entry → n.weight = true)
  node_ok : ∀ (i : Nat) (n : Node K), news[i]? = some n → NodeOk b n
  node_at : ∀ (i : Nat) (n : Node K), news[i]? = some n →
    NodeAt (h.change V R g ix (h.length + top) news) (lab.extend h labs) (h.length + i) n
  exits : ∀ c < h.length,
    ((∃ q ∈ rem, c ∈ h.graph.kids q) ∧ c ∉ rem) ↔ ∃ n ∈ news, c ∈ n.kids

/-- The new leaves say of a key what `f` makes of what the removed leaf said. -/
def Values (h : Heap K) (lab : Labels K) (news : List (Node K)) (rem : List Nat)
    (labs : List (Label K)) (f : K → Option Nat → Option Nat) : Prop :=
  ∀ (k : K) (e : Nat) (en : Node K), e ∈ rem → h.node e = some en → en.leaf = true →
    k ∈ (lab e).range → ∀ (j : Nat) (m : Node K) (t : Label K), news[j]? = some m →
    m.leaf = true → labs[j]? = some t → k ∈ t.range → m.value k = f k (en.value k)

namespace Fits

variable {b : Nat} {h : Heap K} {lab : Labels K} {V R : List Nat} {g ix old top : Nat}
  {news : List (Node K)} {rem : List Nat} {labs : List (Label K)}

/-- The addresses of the new nodes. -/
def added (h : Heap K) (news : List (Node K)) : List Nat :=
  (List.range news.length).map (h.length + ·)

omit [LinearOrder K] in
theorem mem_added {x : Nat} :
    x ∈ added h news ↔ ∃ i, x = h.length + i ∧ i < news.length := by
  simp only [added, List.mem_map, List.mem_range]
  constructor
  · rintro ⟨i, hi, hx⟩
    exact ⟨i, hx.symm, hi⟩
  · rintro ⟨i, hx, hi⟩
    exact ⟨i, hi, hx.symm⟩

theorem exists_g (F : Fits b h lab V R g ix old top news rem labs) :
    ∃ n, h.node g = some n ∧ n.leaf = false ∧ n.kids[ix]? = some old := by
  have hkid := Heap.child_eq_some.mp F.old_kid
  cases hg : h.node g with
  | none => simp [Heap.graph, hg] at hkid
  | some n =>
      rw [Heap.graph_kids hg] at hkid
      exact ⟨n, rfl, Node.inner_of_kid (List.mem_of_getElem? hkid), hkid⟩

/-- The change as a change of the search graph. -/
theorem splice (F : Fits b h lab V R g ix old top news rem labs) (L : Labelled b h lab) :
    h.graph.Splice (h.change V R g ix (h.length + top) news).graph (· < h.length) g ix old
      (h.length + top) rem (added h news) := by
  obtain ⟨gn, hgn, hginner, -⟩ := F.exists_g
  obtain ⟨n, l, hn, -, hadd, -⟩ := F.exists_top
  have htop := (List.getElem?_eq_some_iff.mp hn).1
  refine
    { old_kid := Heap.child_eq_some.mp F.old_kid
      old_mem := F.old_mem
      rem_kid := F.rem_kid
      fresh := ?_
      new_mem := mem_added.mpr ⟨top, rfl, htop⟩
      add_kid := ?_
      kids_g := Heap.change_kids_self hgn hginner
      kids_eq := fun x hx hne => Heap.change_kids_ne hx hne
      dir_eq := fun k x hx => Heap.change_dir hx k
      exits := ?_ }
  · intro a ha hlt
    obtain ⟨i, rfl, -⟩ := mem_added.mp ha
    omega
  · intro a ha
    obtain ⟨i, rfl, hi⟩ := mem_added.mp ha
    rw [Heap.change_kids_new hn]
    rcases hadd i hi with rfl | hk
    · exact Or.inl rfl
    · exact Or.inr hk
  · intro c
    by_cases hc : c < h.length
    · have hnot : c ∉ added h news := by
        intro hmem
        obtain ⟨i, rfl, -⟩ := mem_added.mp hmem
        omega
      rw [F.exits c hc]
      constructor
      · rintro ⟨m, hm, hcm⟩
        obtain ⟨i, hi⟩ := List.getElem?_of_mem hm
        refine ⟨⟨h.length + i, mem_added.mpr ⟨i, rfl, (List.getElem?_eq_some_iff.mp hi).1⟩, ?_⟩,
          hnot⟩
        rwa [Heap.change_kids_new hi]
      · rintro ⟨⟨q, hq, hcq⟩, -⟩
        obtain ⟨i, rfl, hi⟩ := mem_added.mp hq
        rw [Heap.change_kids_new (List.getElem?_eq_getElem hi)] at hcq
        exact ⟨_, List.getElem_mem hi, hcq⟩
    · constructor
      · rintro ⟨⟨q, -, hcq⟩, -⟩
        exact absurd (L.kid_lt hcq) hc
      · -- a child of a new node that is not published before is itself new
        rintro ⟨⟨q, hq, hcq⟩, hnot⟩
        obtain ⟨i, rfl, hi⟩ := mem_added.mp hq
        rw [Heap.change_kids_new (List.getElem?_eq_getElem hi)] at hcq
        have hlt := (F.node_at i _ (List.getElem?_eq_getElem hi)).kid_lt c hcq
        rw [Heap.change_length] at hlt
        obtain ⟨j, rfl⟩ := Nat.exists_eq_add_of_le (Nat.le_of_not_lt hc)
        exact absurd (mem_added.mpr ⟨j, rfl, by omega⟩) hnot

/-- The entry is not removed. -/
theorem entry_not_mem (F : Fits b h lab V R g ix old top news rem labs) (L : Labelled b h lab) :
    entry ∉ rem := by
  intro hmem
  have hlt := (F.splice L).pos_rem L.ranged F.member hmem
  have hg := L.ranged.member_pub F.member
  obtain ⟨k, hk⟩ := L.ranged.nonempty g hg
  have hle := L.ranged.pos_le (L.ranged.reaches_of_member F.member hk) L.ranged.root_pub
  exact absurd hlt (not_lt.mpr hle)

/-- **The members after the change**: the removed nodes are gone, the new ones are there. -/
theorem member_iff (F : Fits b h lab V R g ix old top news rem labs) (L : Labelled b h lab)
    (x : Nat) : (h.change V R g ix (h.length + top) news).Member x
      ↔ (h.Member x ∧ x ∉ rem) ∨ x ∈ added h news :=
  (F.splice L).member_iff L.ranged F.member (F.entry_not_mem L) x

/-- The nodes that were published before keep their place. -/
theorem node_at_old (F : Fits b h lab V R g ix old top news rem labs) (L : Labelled b h lab)
    {x : Nat} {n : Node K} (hx : h.node x = some n) :
    NodeAt (h.change V R g ix (h.length + top) news) (lab.extend h labs) x
      (if x = g then { n with ptrs := n.ptrs.set ix (h.length + top) } else n) := by
  have hat := L.node_at x n hx
  have hlt := Heap.node_lt hx
  have hkid : ∀ c ∈ n.kids, c < h.length := hat.kid_lt
  have hlabel : ∀ c ∈ n.kids, lab.extend h labs c = lab c := fun c hc =>
    Labels.extend_old (hkid c hc)
  have hself : lab.extend h labs x = lab x := Labels.extend_old hlt
  split
  · -- the new pointer leads to a node with the range of the old one
    rename_i hxg
    subst hxg
    obtain ⟨gn, hgn, hginner, hold⟩ := F.exists_g
    obtain rfl : n = gn := Option.some.inj (hx.symm.trans hgn)
    obtain ⟨t, l, ht, hl, -, hrange, hpos, hlevel, -⟩ := F.exists_top
    have hnew : lab.extend h labs (h.length + top) = l := Labels.extend_new hl
    have hinner : n.kids = n.ptrs := Node.kids_inner hginner
    have hptrs : n.ptrs[ix]? = some old := hinner ▸ hold
    have hkids : ({ n with ptrs := n.ptrs.set ix (h.length + top) } : Node K).kids
        = n.ptrs.set ix (h.length + top) := Node.kids_inner hginner
    have hset : ∀ c ∈ n.ptrs.set ix (h.length + top), c = h.length + top ∨ c ∈ n.kids := by
      intro c hc
      rcases List.mem_or_eq_of_mem_set hc with hc | hc
      · exact Or.inr (hinner ▸ hc)
      · exact Or.inl hc
    refine
      { search_mem := hself ▸ hat.search_mem
        keys_mem := hself ▸ hat.keys_mem
        tiles := fun _ => ?_
        kid_lt := ?_
        kid_pos := ?_
        leaf_level := fun hleaf => absurd hleaf (by simp [hginner])
        inner_level := fun _ => hself ▸ hat.inner_level hginner
        kid_level := ?_ }
    · have hmap : (n.ptrs.set ix (h.length + top)).map (fun c => (lab.extend h labs c).range)
          = n.ptrs.map fun c => (lab c).range := by
        apply List.ext_getElem?
        intro j
        rw [List.getElem?_map, List.getElem?_map, List.getElem?_set]
        split
        · rename_i hj
          subst hj
          obtain ⟨hixlt, hget⟩ := List.getElem?_eq_some_iff.mp hptrs
          simp [hixlt, hget, hnew, hrange]
        · cases hj : n.ptrs[j]? with
          | none => rfl
          | some c =>
              have hc : c ∈ n.kids := hinner ▸ List.mem_of_getElem? hj
              simp [hlabel c hc]
      rw [hself, hmap]
      exact hat.tiles hginner
    · intro c hc
      rw [hkids] at hc
      rw [Heap.change_length]
      have htop := (List.getElem?_eq_some_iff.mp ht).1
      rcases hset c hc with rfl | hc
      · omega
      · exact Nat.lt_of_lt_of_le (hkid c hc) (Nat.le_add_right _ _)
    · intro c hc
      rw [hkids] at hc
      rcases hset c hc with rfl | hc
      · rw [hself, hnew]
        exact hpos
      · rw [hself, hlabel c hc]
        exact hat.kid_pos c hc
    · intro hne c hc
      rw [hkids] at hc
      rcases hset c hc with rfl | hc
      · rw [hself, hnew, Heap.change_weight_new ht, hlevel hne]
        exact hat.kid_level hne old (List.mem_of_getElem? hold)
      · rw [hself, hlabel c hc, Heap.change_weight (hkid c hc)]
        exact hat.kid_level hne c hc
  · refine
      { search_mem := hself ▸ hat.search_mem
        keys_mem := hself ▸ hat.keys_mem
        tiles := fun hinner => ?_
        kid_lt := ?_
        kid_pos := ?_
        leaf_level := fun hleaf => hself ▸ hat.leaf_level hleaf
        inner_level := fun hinner => hself ▸ hat.inner_level hinner
        kid_level := ?_ }
    · rw [hself]
      have hmap : n.ptrs.map (fun c => (lab.extend h labs c).range)
          = n.ptrs.map fun c => (lab c).range :=
        List.map_congr_left fun c hc => by rw [hlabel c (by rwa [Node.kids_inner hinner])]
      rw [hmap]
      exact hat.tiles hinner
    · intro c hc
      rw [Heap.change_length]
      exact Nat.lt_of_lt_of_le (hkid c hc) (Nat.le_add_right _ _)
    · intro c hc
      rw [hself, hlabel c hc]
      exact hat.kid_pos c hc
    · intro hne c hc
      rw [hself, hlabel c hc, Heap.change_weight (hkid c hc)]
      exact hat.kid_level hne c hc

/-- **A change that fits keeps the heap labelled.** -/
theorem labelled (F : Fits b h lab V R g ix old top news rem labs) (L : Labelled b h lab) :
    Labelled b (h.change V R g ix (h.length + top) news) (lab.extend h labs) where
  node_ok := by
    intro x n' hx
    rcases Heap.change_node_cases hx with ⟨n, hn, rfl⟩ | ⟨i, rfl, hi⟩
    · have hok := L.node_ok x n hn
      split
      · constructor
        · simpa using hok.ptrs_length
        · exact hok.keys_length
        · exact hok.size_le
        · exact hok.leaf_weight
        · exact hok.leaf_sorted
        · exact hok.inner_size
        · exact hok.zero_size
      · exact hok
    · exact F.node_ok i n' hi
  node_at := by
    intro x n' hx
    rcases Heap.change_node_cases hx with ⟨n, hn, rfl⟩ | ⟨i, rfl, hi⟩
    · exact F.node_at_old L hn
    · exact F.node_at i n' hi
  entry_node := by
    obtain ⟨e, he, hleaf, hweight, hsize⟩ := L.entry_node
    refine ⟨_, Heap.change_node_old he, ?_⟩
    split
    · exact ⟨hleaf, hweight, hsize⟩
    · exact ⟨hleaf, hweight, hsize⟩
  entry_range := by
    rw [Labels.extend_old L.ranged.root_pub]
    exact L.entry_range
  root_weight := by
    intro r n hr hn
    obtain ⟨r₀, n₀, hr₀, hkids, hn₀⟩ := L.exists_root
    rw [Heap.child_eq_some] at hr
    by_cases hg : g = entry
    · obtain ⟨gn, hgn, hginner, hold⟩ := F.exists_g
      obtain ⟨t, l, ht, -, -, -, -, -, hweight⟩ := F.exists_top
      rw [← hg, Heap.change_kids_self hgn hginner, hg, hkids] at hr
      rw [← Heap.graph_kids hgn, hg, hkids] at hold
      have hix : ix = 0 := by
        have := (List.getElem?_eq_some_iff.mp hold).1
        simpa using this
      subst hix
      obtain rfl : h.length + top = r := by simpa using hr
      rw [Heap.change_node_new, ht] at hn
      cases hn
      exact hweight hg
    · rw [Heap.change_kids_ne L.ranged.root_pub (Ne.symm hg), hkids] at hr
      obtain rfl : r₀ = r := by simpa using hr
      rw [Heap.change_node_old hn₀, Option.some.injEq] at hn
      have := L.root_weight r₀ n₀ hr₀ hn₀
      subst hn
      split <;> exact this
  marked_iff := by
    intro x c' hx hinner
    rw [F.member_iff L x]
    by_cases hlt : x < h.length
    · have hc := List.getElem?_eq_getElem hlt
      rw [Heap.change_old hc, Option.some.injEq] at hx
      subst hx
      have hnode : h.node x = some h[x].node := Heap.node_eq_some.mpr ⟨_, hc, rfl⟩
      have hinner' : h[x].node.leaf = false := by
        revert hinner
        dsimp only
        split <;> exact fun hl => hl
      have hnot : x ∉ added h news := by
        intro hmem
        obtain ⟨i, rfl, -⟩ := mem_added.mp hmem
        omega
      have hmark := L.marked_iff x _ hc hinner'
      have hfin := F.finalized x _ hnode
      simp only [Bool.or_eq_true, decide_eq_true_eq, hmark, hfin]
      tauto
    · obtain ⟨i, rfl⟩ := Nat.exists_eq_add_of_le (Nat.le_of_not_lt hlt)
      rw [Heap.change_new] at hx
      cases hi : news[i]? with
      | none => rw [hi] at hx; cases hx
      | some n =>
          rw [hi] at hx
          cases hx
          have hadd : h.length + i ∈ added h news :=
            mem_added.mpr ⟨i, rfl, (List.getElem?_eq_some_iff.mp hi).1⟩
          simp [hadd]
  leaf_unmarked := by
    intro x c' hx hleaf
    by_cases hlt : x < h.length
    · have hc := List.getElem?_eq_getElem hlt
      rw [Heap.change_old hc, Option.some.injEq] at hx
      subst hx
      have hnode : h.node x = some h[x].node := Heap.node_eq_some.mpr ⟨_, hc, rfl⟩
      have hleaf' : h[x].node.leaf = true := by
        revert hleaf
        dsimp only
        split <;> exact fun hl => hl
      have hR : x ∉ R := by
        rw [F.finalized x _ hnode]
        simp [hleaf']
      simp [L.leaf_unmarked x _ hc hleaf', hR]
    · obtain ⟨i, rfl⟩ := Nat.exists_eq_add_of_le (Nat.le_of_not_lt hlt)
      rw [Heap.change_new] at hx
      cases hi : news[i]? with
      | none => rw [hi] at hx; cases hx
      | some n => rw [hi] at hx; cases hx; rfl

end Fits

/-! ## The members of short lists -/

section Short

variable {α : Type*} {x y z a : α} {i : Nat}

theorem getElem?_one (h : [x][i]? = some a) : i = 0 ∧ x = a := by
  cases i with
  | zero => exact ⟨rfl, Option.some.inj h⟩
  | succ i => cases h

theorem getElem?_two (h : [x, y][i]? = some a) : (i = 0 ∧ x = a) ∨ (i = 1 ∧ y = a) := by
  cases i with
  | zero => exact Or.inl ⟨rfl, Option.some.inj h⟩
  | succ i =>
      obtain ⟨rfl, rfl⟩ := getElem?_one h
      exact Or.inr ⟨rfl, rfl⟩

theorem getElem?_three (h : [x, y, z][i]? = some a) :
    (i = 0 ∧ x = a) ∨ (i = 1 ∧ y = a) ∨ (i = 2 ∧ z = a) := by
  cases i with
  | zero => exact Or.inl ⟨rfl, Option.some.inj h⟩
  | succ i =>
      rcases getElem?_two h with ⟨rfl, rfl⟩ | ⟨rfl, rfl⟩
      · exact Or.inr (Or.inl ⟨rfl, rfl⟩)
      · exact Or.inr (Or.inr ⟨rfl, rfl⟩)

end Short

/-! ## New internal nodes -/

/-- An internal node whose children were there before the change. -/
theorem Fits.nodeAt_inner {h : Heap K} {lab : Labels K} {V R : List Nat} {g ix new x : Nat}
    {news : List (Node K)} {labs : List (Label K)} {n : Node K} {l : Label K}
    (hinner : n.leaf = false) (hl : lab.extend h labs x = l) (hsearch : n.searchKey ∈ l.range)
    (htiles : Tiles l.range n.keys (n.ptrs.map fun c => (lab c).range)) (hlevel : 1 ≤ l.level)
    (hkids : ∀ c ∈ n.ptrs, c < h.length ∧ l.pos < (lab c).pos
      ∧ (lab c).level + h.weight c = l.level) :
    NodeAt (h.change V R g ix new news) (lab.extend h labs) x n := by
  have hptrs : n.kids = n.ptrs := Node.kids_inner hinner
  refine
    { search_mem := by rwa [hl]
      keys_mem := fun k hk => by rw [hl]; exact htiles.mem_keys hk
      tiles := fun _ => ?_
      kid_lt := fun c hc => ?_
      kid_pos := fun c hc => ?_
      leaf_level := fun hleaf => absurd (hleaf.symm.trans hinner) (by simp)
      inner_level := fun _ => by rwa [hl]
      kid_level := fun _ c hc => ?_ }
  · have hmap : n.ptrs.map (fun c => (lab.extend h labs c).range)
        = n.ptrs.map fun c => (lab c).range :=
      List.map_congr_left fun c hc => by rw [Labels.extend_old (hkids c hc).1]
    rwa [hl, hmap]
  · rw [hptrs] at hc
    rw [Heap.change_length]
    exact Nat.lt_of_lt_of_le (hkids c hc).1 (Nat.le_add_right _ _)
  · rw [hptrs] at hc
    rw [hl, Labels.extend_old (hkids c hc).1]
    exact (hkids c hc).2.1
  · rw [hptrs] at hc
    rw [hl, Labels.extend_old (hkids c hc).1, Heap.change_weight (hkids c hc).1]
    exact (hkids c hc).2.2

theorem nodeOk_inner {b : Nat} {weight : Bool} {size : Nat} {key : K} {keys : List K}
    {ptrs : List Nat} (hptrs : ptrs.length = size) (hkeys : keys.length + 1 = size)
    (hb : size ≤ b) (hweight : weight = false → size = 2) :
    NodeOk b (⟨false, weight, size, key, keys, ptrs⟩ : Node K) where
  ptrs_length := hptrs
  keys_length := by
    rw [Node.getKeyCount_inner rfl]
    dsimp only
    omega
  size_le := hb
  leaf_weight := fun hl => Bool.noConfusion hl
  leaf_sorted := fun hl => Bool.noConfusion hl
  inner_size := fun _ => by dsimp only; omega
  zero_size := hweight

omit [LinearOrder K] in
/-- A position between a node and all nodes of a list above it. -/
theorem exists_pos_between {lab : Labels K} {q : ℚ} (cs : List Nat)
    (hcs : ∀ c ∈ cs, q < (lab c).pos) : ∃ r, q < r ∧ ∀ c ∈ cs, r < (lab c).pos := by
  induction cs with
  | nil => exact ⟨q + 1, lt_add_one q, by simp⟩
  | cons c cs ih =>
      obtain ⟨r, hqr, hr⟩ := ih fun d hd => hcs d (List.mem_cons_of_mem c hd)
      obtain ⟨m, hqm, hm⟩ := exists_between (lt_min hqr (hcs c List.mem_cons_self))
      refine ⟨m, hqm, fun d hd => ?_⟩
      rcases List.mem_cons.mp hd with rfl | hd
      · exact lt_of_lt_of_le hm (min_le_right _ _)
      · exact lt_trans (lt_of_lt_of_le hm (min_le_left _ _)) (hr d hd)

/-! ## A new parent of two new nodes -/

/-- The parent that overflow and split put over two halves. -/
def pairNode (weight : Bool) (mid : K) (left right : Nat) : Node K :=
  ⟨false, weight, 2, mid, [mid], [left, right]⟩

omit [LinearOrder K] in
theorem pairNode_kids {weight : Bool} {mid : K} {left right c : Nat} :
    c ∈ (pairNode weight mid left right).kids ↔ c = left ∨ c = right := by
  simp [pairNode, Node.kids]

theorem pairNode_ok {b : Nat} (hb : 2 ≤ b) (weight : Bool) (mid : K) (left right : Nat) :
    NodeOk b (pairNode weight mid left right) where
  ptrs_length := rfl
  keys_length := rfl
  size_le := hb
  leaf_weight := fun hl => Bool.noConfusion hl
  leaf_sorted := fun hl => Bool.noConfusion hl
  inner_size := fun _ => Nat.le_succ 1
  zero_size := fun _ => rfl

/-- The halves of a range under their new parent. -/
theorem pairNode_at {h : Heap K} {lab : Labels K} {x left right : Nat} {weight : Bool} {mid : K}
    (hmid : mid ∈ (lab x).range) (hlow : ((lab x).range ∩ Set.Iio mid).Nonempty)
    (hleft : (lab left).range = (lab x).range ∩ Set.Iio mid)
    (hright : (lab right).range = (lab x).range ∩ Set.Ici mid)
    (hlt : left < h.length ∧ right < h.length)
    (hpos : (lab x).pos < (lab left).pos ∧ (lab x).pos < (lab right).pos)
    (hweight : h.weight left = 1 ∧ h.weight right = 1)
    (hlevel : (lab left).level + 1 = (lab x).level ∧ (lab right).level + 1 = (lab x).level) :
    NodeAt h lab x (pairNode weight mid left right) where
  search_mem := hmid
  keys_mem := fun k hk => by rwa [List.mem_singleton.mp hk]
  tiles := fun _ => tiles_pair.mpr ⟨hmid, hlow, hleft, hright⟩
  kid_lt := fun c hc => by rcases pairNode_kids.mp hc with rfl | rfl; exacts [hlt.1, hlt.2]
  kid_pos := fun c hc => by rcases pairNode_kids.mp hc with rfl | rfl; exacts [hpos.1, hpos.2]
  leaf_level := fun hl => Bool.noConfusion hl
  inner_level := fun _ => by omega
  kid_level := fun _ c hc => by
    rcases pairNode_kids.mp hc with rfl | rfl
    · rw [hweight.1, hlevel.1]
    · rw [hweight.2, hlevel.2]

/-! ## What the other threads rely on -/

/-- What no step of any thread takes from the others: nodes keep everything but their pointers, a
node whose handle is unchanged is unchanged altogether, a node that has left the tree does not
come back, nor does a node become the root, and a search that is under way still finds what it
would have found. -/
structure Grows (h : Heap K) (lab : Labels K) (h' : Heap K) (lab' : Labels K) : Prop where
  node : ∀ x n, h.node x = some n → ∃ ptrs, h'.node x = some { n with ptrs := ptrs }
    ∧ (n.leaf = true → ptrs = n.ptrs)
  cell : ∀ (x : Nat) (c : Cell K), h[x]? = some c → ∃ c' : Cell K, h'[x]? = some c'
    ∧ c.info ≤ c'.info ∧ (c'.info = c.info → c' = c)
  label : ∀ x < h.length, lab' x = lab x
  root : ∀ x < h.length, h.child entry 0 ≠ some x → h'.child entry 0 ≠ some x
  member : ∀ x < h.length, h'.Member x → h.Member x
  reaches : ∀ k, ∀ x < h.length, k ∈ (lab x).range → ∀ y, h.graph.Reaches k x y → h'.Member y →
    h'.graph.Reaches k x y
  reaches_inv : ∀ k, ∀ x < h.length, ∀ y, h'.graph.Reaches k x y →
    h.graph.Reaches k x y ∨ h'.Member y

theorem Grows.refl (h : Heap K) (lab : Labels K) : Grows h lab h lab where
  node := fun _ n hn => ⟨n.ptrs, hn, fun _ => rfl⟩
  cell := fun _ c hc => ⟨c, hc, Nat.le_refl _, fun _ => rfl⟩
  label := fun _ _ => rfl
  root := fun _ _ hr => hr
  member := fun _ _ hm => hm
  reaches := fun _ _ _ _ _ hr _ => hr
  reaches_inv := fun _ _ _ _ hr => Or.inl hr

theorem Grows.lt {h h' : Heap K} {lab lab' : Labels K} (G : Grows h lab h' lab') {x : Nat}
    (hx : x < h.length) : x < h'.length := by
  obtain ⟨n, hn⟩ := Heap.exists_node hx
  obtain ⟨ptrs, hn', -⟩ := G.node x n hn
  exact Heap.node_lt hn'

/-- **A change that fits takes nothing from the other threads.** -/
theorem Fits.grows {b : Nat} {h : Heap K} {lab : Labels K} {V R : List Nat} {g ix old top : Nat}
    {news : List (Node K)} {rem : List Nat} {labs : List (Label K)}
    (F : Fits b h lab V R g ix old top news rem labs) (L : Labelled b h lab) :
    Grows h lab (h.change V R g ix (h.length + top) news) (lab.extend h labs) where
  node := by
    intro x n hn
    obtain ⟨gn, hgn, hginner, -⟩ := F.exists_g
    by_cases hxg : x = g
    · subst hxg
      obtain rfl : n = gn := Option.some.inj (hn.symm.trans hgn)
      refine ⟨n.ptrs.set ix (h.length + top), ?_, fun hleaf => ?_⟩
      · rw [Heap.change_node_old hn, if_pos rfl]
      · rw [hginner] at hleaf
        cases hleaf
    · exact ⟨n.ptrs, by rw [Heap.change_node_old hn, if_neg hxg], fun _ => rfl⟩
  cell := by
    intro x c hc
    refine ⟨_, Heap.change_old hc, ?_, ?_⟩
    · dsimp only
      split <;> omega
    · dsimp only
      intro hinfo
      have hV : x ∉ V := by
        intro hV
        rw [if_pos hV] at hinfo
        omega
      have hxg : x ≠ g := fun hxg => hV (hxg ▸ F.frozen.1)
      have hR : x ∉ R := fun hR => hV (F.frozen.2 hR)
      simp [hV, hxg, hR]
  label := fun _ hx => Labels.extend_old hx
  root := by
    intro x hx hroot hroot'
    rw [ne_eq, Heap.child_eq_some] at hroot
    rw [Heap.child_eq_some] at hroot'
    by_cases hg : g = entry
    · obtain ⟨gn, hgn, hginner, -⟩ := F.exists_g
      rw [← hg, Heap.change_kids_self hgn hginner, hg] at hroot'
      rw [List.getElem?_set] at hroot'
      split at hroot'
      · split at hroot'
        · cases hroot'
          omega
        · cases hroot'
      · exact hroot hroot'
    · rw [Heap.change_kids_ne L.ranged.root_pub (Ne.symm hg)] at hroot'
      exact hroot hroot'
  member := by
    intro x hx hm
    rcases (F.member_iff L x).mp hm with ⟨hm, -⟩ | hm
    · exact hm
    · obtain ⟨i, rfl, -⟩ := Fits.mem_added.mp hm
      omega
  reaches := by
    intro k x hx hk y hr hy
    have L' := F.labelled L
    exact (F.splice L).reaches L.ranged L'.ranged
      (fun z hz => by rw [Labels.extend_old hz]) (fun z hz => by rw [Labels.extend_old hz])
      F.member hx hk hr hy
  reaches_inv := fun k x hx y hr => (F.splice L).reaches_inv L.ranged F.member hx hr

end Pacer.Abtree
