import Mathlib.Logic.Relation
import Mathlib.Data.Set.Lattice
import Mathlib.Data.Finset.Card
import Mathlib.Data.List.Basic

set_option autoImplicit false

/-! # Search graphs with fixed ranges

The nodes of a search structure and their pointers: a node has children `kids x`, and a search for
`k` goes on to the child with index `dir k x`. In a structure whose nodes are replaced and never
moved, each node answers for the same keys as long as it exists. So a node can be labelled, once
and for all, with the set `range x` of these keys and with a position `pos x` that grows along the
pointers (`Ranged`). The labels are kept by nodes that have left the structure, which threads may
still be visiting.

* `Ranged.reaches_of_pos_le`: of two members on the way of `k` the one with the smaller position
  leads to the other.
* `Ranged.parent_unique`: a member is the child of one member only.
* `Splice.member_iff`: when one pointer is changed so that a part `rem` of the structure is
  replaced by `add`, the members are the old ones without `rem` and with `add`.
* `Splice.reaches`: a search that would have found a remaining member still finds it.
* `Splice.cut`: what no pointer leads into stays so.
* `Ranged.follow_ends`: a search alone ends within as many steps as there are further nodes.
-/

variable {K A P : Type*}

/-- Nodes, their children, and the child a key is routed to. -/
structure RangeGraph (K A : Type*) where
  kids : A → List A
  dir : K → A → Nat

namespace RangeGraph

open Relation

def Kid (G : RangeGraph K A) (x c : A) : Prop := c ∈ G.kids x

def Next (G : RangeGraph K A) (k : K) (x c : A) : Prop := (G.kids x)[G.dir k x]? = some c

/-- The nodes that can be reached from the root. -/
def Member (G : RangeGraph K A) (root x : A) : Prop := ReflTransGen G.Kid root x

/-- A search for `k` gets from the first node to the second. -/
def Reaches (G : RangeGraph K A) (k : K) : A → A → Prop := ReflTransGen (G.Next k)

/-- The labels of the nodes in `Pub`: the keys a node answers for, and its position. -/
structure Ranged [Preorder P] (G : RangeGraph K A) (root : A) (Pub : A → Prop)
    (range : A → Set K) (pos : A → P) : Prop where
  root_pub : Pub root
  root_range : range root = Set.univ
  nonempty : ∀ x, Pub x → (range x).Nonempty
  kid_pub : ∀ x c, Pub x → c ∈ G.kids x → Pub c
  kid_range : ∀ x i c, Pub x → (G.kids x)[i]? = some c →
    ∀ k, k ∈ range c ↔ k ∈ range x ∧ G.dir k x = i
  kid_pos : ∀ x c, Pub x → c ∈ G.kids x → pos x < pos c

theorem Next.kid {G : RangeGraph K A} {k : K} {x c : A} (h : G.Next k x c) : G.Kid x c :=
  List.mem_of_getElem? h

theorem Reaches.kids {G : RangeGraph K A} {k : K} {x y : A} (h : G.Reaches k x y) :
    ReflTransGen G.Kid x y := by
  induction h with
  | refl => exact ReflTransGen.refl
  | tail _ hc ih => exact ih.tail hc.kid

theorem next_unique (G : RangeGraph K A) (k : K) : Relator.RightUnique (G.Next k) :=
  fun _ _ _ h h' => Option.some.inj (h.symm.trans h')

theorem Reaches.eq_of_leaf {G : RangeGraph K A} {k : K} {x y : A} (h : G.Reaches k x y)
    (hx : G.kids x = []) : x = y := by
  rcases ReflTransGen.cases_head h with rfl | ⟨c, hc, -⟩
  · rfl
  · rw [Next, hx] at hc
    cases hc

/-- Two ends of one search are the same node. -/
theorem Reaches.leaf_unique {G : RangeGraph K A} {k : K} {x y z : A} (hy : G.Reaches k x y)
    (hz : G.Reaches k x z) (ly : G.kids y = []) (lz : G.kids z = []) : y = z := by
  rcases ReflTransGen.total_of_right_unique (G.next_unique k) hy hz with h | h
  · exact Reaches.eq_of_leaf h ly
  · exact (Reaches.eq_of_leaf h lz).symm

/-- Follow the search for at most `n` steps. -/
def follow (G : RangeGraph K A) (k : K) : Nat → A → A
  | 0, x => x
  | n + 1, x =>
      match (G.kids x)[G.dir k x]? with
      | none => x
      | some c => follow G k n c

theorem reaches_follow (G : RangeGraph K A) (k : K) (n : Nat) (x : A) :
    G.Reaches k x (G.follow k n x) := by
  induction n generalizing x with
  | zero => exact ReflTransGen.refl
  | succ n ih =>
      rw [follow]
      split
      · exact ReflTransGen.refl
      · rename_i c hc
        exact ReflTransGen.head hc (ih c)

namespace Ranged

variable [LinearOrder P] {G : RangeGraph K A} {root : A} {Pub : A → Prop} {range : A → Set K}
  {pos : A → P}

theorem member_pub (R : G.Ranged root Pub range pos) {x : A} (h : G.Member root x) : Pub x := by
  induction h with
  | refl => exact R.root_pub
  | tail _ hc ih => exact R.kid_pub _ _ ih hc

theorem reaches_pub (R : G.Ranged root Pub range pos) {k : K} {x y : A} (h : G.Reaches k x y)
    (hx : Pub x) : Pub y := by
  induction h with
  | refl => exact hx
  | tail _ hc ih => exact R.kid_pub _ _ ih hc.kid

theorem pos_le (R : G.Ranged root Pub range pos) {k : K} {x y : A} (h : G.Reaches k x y)
    (hx : Pub x) : pos x ≤ pos y := by
  induction h with
  | refl => exact le_refl _
  | tail hxy hc ih =>
      exact le_trans ih (le_of_lt (R.kid_pos _ _ (R.reaches_pub hxy hx) hc.kid))

/-- The child a key is routed to answers for it. -/
theorem mem_of_next (R : G.Ranged root Pub range pos) {k : K} {x c : A} (hx : Pub x)
    (hk : k ∈ range x) (h : G.Next k x c) : k ∈ range c :=
  (R.kid_range x _ c hx h k).mpr ⟨hk, rfl⟩

theorem mem_of_reaches (R : G.Ranged root Pub range pos) {k : K} {x y : A} (hx : Pub x)
    (hk : k ∈ range x) (h : G.Reaches k x y) : k ∈ range y := by
  induction h with
  | refl => exact hk
  | tail hxy hc ih => exact R.mem_of_next (R.reaches_pub hxy hx) ih hc

/-- A key of a child's range is a key of the parent's, and is routed to the child. -/
theorem next_of_mem (R : G.Ranged root Pub range pos) {k : K} {x c : A} (hx : Pub x)
    (hc : c ∈ G.kids x) (hk : k ∈ range c) : k ∈ range x ∧ G.Next k x c := by
  obtain ⟨i, hi⟩ := List.getElem?_of_mem hc
  obtain ⟨hx, rfl⟩ := (R.kid_range x i c hx hi k).mp hk
  exact ⟨hx, hi⟩

/-- **A member is on the way of every key it answers for.** -/
theorem reaches_of_member (R : G.Ranged root Pub range pos) {k : K} {x : A}
    (h : G.Member root x) (hk : k ∈ range x) : G.Reaches k root x := by
  induction h with
  | refl => exact ReflTransGen.refl
  | tail hy hc ih =>
      obtain ⟨hky, hnext⟩ := R.next_of_mem (R.member_pub hy) hc hk
      exact (ih hky).tail hnext

theorem reaches_of_pos_le (R : G.Ranged root Pub range pos) {k : K} {x y : A}
    (hx : G.Member root x) (hy : G.Member root y) (hkx : k ∈ range x) (hky : k ∈ range y)
    (hpos : pos x ≤ pos y) : G.Reaches k x y := by
  rcases ReflTransGen.total_of_right_unique (G.next_unique k) (R.reaches_of_member hx hkx)
    (R.reaches_of_member hy hky) with h | h
  · exact h
  · rcases ReflTransGen.cases_head h with rfl | ⟨c, hc, hcx⟩
    · exact ReflTransGen.refl
    · have hyp := R.member_pub hy
      have hlt := R.kid_pos _ _ hyp hc.kid
      have hle := R.pos_le hcx (R.kid_pub _ _ hyp hc.kid)
      exact absurd hpos (not_le.mpr (lt_of_lt_of_le hlt hle))

/-- **A member has one parent**, and is its child once. -/
theorem parent_unique (R : G.Ranged root Pub range pos) {x y c : A} {i j : Nat}
    (hx : G.Member root x) (hy : G.Member root y) (hi : (G.kids x)[i]? = some c)
    (hj : (G.kids y)[j]? = some c) : x = y ∧ i = j := by
  have hxp := R.member_pub hx
  have hyp := R.member_pub hy
  obtain ⟨k, hk⟩ := R.nonempty c (R.kid_pub x c hxp (List.mem_of_getElem? hi))
  obtain ⟨hkx, hdx⟩ := (R.kid_range x i c hxp hi k).mp hk
  obtain ⟨hky, hdy⟩ := (R.kid_range y j c hyp hj k).mp hk
  -- two parents would be on the way of `k`, one of them below `c` and above it
  have hxy : ∀ {x y : A}, G.Member root x → G.Member root y → k ∈ range x → k ∈ range y →
      G.Next k x c → G.Next k y c → pos x ≤ pos y → x = y := by
    intro x y hx hy hkx hky hnx hny hle
    rcases ReflTransGen.cases_head (R.reaches_of_pos_le hx hy hkx hky hle) with rfl | ⟨d, hd, hdy⟩
    · rfl
    · have hxp := R.member_pub hx
      obtain rfl := G.next_unique k hnx hd
      have hlt := R.kid_pos y c (R.member_pub hy) hny.kid
      exact absurd (R.pos_le hdy (R.kid_pub x c hxp hd.kid)) (not_le.mpr hlt)
  have heq : x = y := by
    have hnx : G.Next k x c := by rw [Next, hdx, hi]
    have hny : G.Next k y c := by rw [Next, hdy, hj]
    rcases le_total (pos x) (pos y) with h | h
    · exact hxy hx hy hkx hky hnx hny h
    · exact (hxy hy hx hky hkx hny hnx h).symm
  subst heq
  exact ⟨rfl, hdx.symm.trans hdy⟩

/-- **A search alone ends** within as many steps as there are further nodes. -/
theorem follow_ends (R : G.Ranged root Pub range pos) {dom : Finset A}
    (hdom : ∀ x, Pub x → x ∈ dom) (k : K) {x : A} (hx : Pub x) {n : Nat} (hn : dom.card ≤ n + 1) :
    (G.kids (G.follow k n x))[G.dir k (G.follow k n x)]? = none := by
  -- the nodes beyond the current one get fewer with each step
  have key : ∀ (n : Nat) (x : A), Pub x → (dom.filter (pos x < pos ·)).card ≤ n →
      (G.kids (G.follow k n x))[G.dir k (G.follow k n x)]? = none := by
    intro n
    induction n with
    | zero =>
        intro x hx hn
        by_contra hne
        obtain ⟨c, hc⟩ := Option.ne_none_iff_exists'.mp hne
        have hcx := List.mem_of_getElem? hc
        have : c ∈ dom.filter (pos x < pos ·) :=
          Finset.mem_filter.mpr ⟨hdom c (R.kid_pub x c hx hcx), R.kid_pos x c hx hcx⟩
        rw [Finset.card_eq_zero.mp (Nat.le_zero.mp hn)] at this
        cases this
    | succ n ih =>
        intro x hx hn
        rw [follow]
        split
        · assumption
        · rename_i c hc
          have hcx := List.mem_of_getElem? hc
          have hlt := R.kid_pos x c hx hcx
          have hcp := R.kid_pub x c hx hcx
          refine ih c hcp (Nat.le_of_lt_succ (lt_of_lt_of_le (Finset.card_lt_card ?_) hn))
          refine (Finset.ssubset_iff_of_subset fun y hy => ?_).mpr
            ⟨c, Finset.mem_filter.mpr ⟨hdom c hcp, hlt⟩, by simp⟩
          rw [Finset.mem_filter] at hy ⊢
          exact ⟨hy.1, lt_trans hlt hy.2⟩
  refine key n x hx (Nat.le_of_lt_succ (lt_of_lt_of_le (Finset.card_lt_card ?_) hn))
  exact (Finset.ssubset_iff_of_subset (Finset.filter_subset _ _)).mpr ⟨x, hdom x hx, by simp⟩

end Ranged

/-! ## Replacing a part -/

/-- The pointer `ix` of `g` is changed from `old` to `new`: the nodes `rem` (`old` and children of
it) make way for the unpublished nodes `add` (`new` and children of it), and the children that
lead out of `rem` are those that lead out of `add`. -/
structure Splice (G G' : RangeGraph K A) (Pub : A → Prop) (g : A) (ix : Nat) (old new : A)
    (rem add : List A) : Prop where
  old_kid : (G.kids g)[ix]? = some old
  old_mem : old ∈ rem
  rem_kid : ∀ r ∈ rem, r = old ∨ r ∈ G.kids old
  fresh : ∀ a ∈ add, ¬ Pub a
  new_mem : new ∈ add
  add_kid : ∀ a ∈ add, a = new ∨ a ∈ G'.kids new
  kids_g : G'.kids g = (G.kids g).set ix new
  kids_eq : ∀ x, Pub x → x ≠ g → G'.kids x = G.kids x
  dir_eq : ∀ k x, Pub x → G'.dir k x = G.dir k x
  exits : ∀ c, ((∃ q ∈ rem, c ∈ G.kids q) ∧ c ∉ rem) ↔ ((∃ q ∈ add, c ∈ G'.kids q) ∧ c ∉ add)

namespace Splice

variable [LinearOrder P] {G G' : RangeGraph K A} {root g old new : A} {ix : Nat}
  {rem add : List A} {Pub Pub' : A → Prop} {range range' : A → Set K} {pos pos' : A → P}

/-- The removed nodes are below `g`. -/
theorem pos_rem (S : G.Splice G' Pub g ix old new rem add) (R : G.Ranged root Pub range pos)
    (hg : G.Member root g) {r : A} (hr : r ∈ rem) : pos g < pos r := by
  have hgp := R.member_pub hg
  have hold := List.mem_of_getElem? S.old_kid
  have hlt := R.kid_pos g old hgp hold
  rcases S.rem_kid r hr with rfl | hr
  · exact hlt
  · exact lt_trans hlt (R.kid_pos old r (R.kid_pub g old hgp hold) hr)

/-- A pointer of a remaining node other than the changed one is kept. -/
theorem kid_kept (S : G.Splice G' Pub g ix old new rem add) {x c : A} (hx : Pub x) (hc : c ≠ old)
    (h : c ∈ G.kids x) : c ∈ G'.kids x := by
  by_cases hxg : x = g
  · subst hxg
    obtain ⟨j, hj⟩ := List.getElem?_of_mem h
    have hne : ix ≠ j := by
      rintro rfl
      exact hc (Option.some.inj (hj.symm.trans S.old_kid))
    rw [S.kids_g]
    exact List.mem_of_getElem? (by rw [List.getElem?_set_ne hne, hj])
  · rwa [S.kids_eq x hx hxg]

theorem new_kid (S : G.Splice G' Pub g ix old new rem add) : new ∈ G'.kids g := by
  have hlt := (List.getElem?_eq_some_iff.mp S.old_kid).1
  rw [S.kids_g]
  exact List.mem_of_getElem? (i := ix) (by simp [hlt])

/-- The nodes above the change, and `g` itself, stay members. -/
theorem member_above (S : G.Splice G' Pub g ix old new rem add)
    (R : G.Ranged root Pub range pos) (hg : G.Member root g) {x : A} (h : G.Member root x)
    (hx : pos x ≤ pos g) : G'.Member root x := by
  induction h with
  | refl => exact ReflTransGen.refl
  | tail hy hc ih =>
      have hyp := R.member_pub hy
      refine (ih (le_of_lt (lt_of_lt_of_le (R.kid_pos _ _ hyp hc) hx))).tail ?_
      refine S.kid_kept hyp ?_ hc
      rintro rfl
      exact absurd hx (not_le.mpr (S.pos_rem R hg S.old_mem))

theorem member_add (S : G.Splice G' Pub g ix old new rem add) (R : G.Ranged root Pub range pos)
    (hg : G.Member root g) {a : A} (ha : a ∈ add) : G'.Member root a := by
  have hnew := (S.member_above R hg hg (le_refl _)).tail S.new_kid
  rcases S.add_kid a ha with rfl | ha
  · exact hnew
  · exact hnew.tail ha

/-- **The members after the change.** -/
theorem member_iff (S : G.Splice G' Pub g ix old new rem add) (R : G.Ranged root Pub range pos)
    (hg : G.Member root g) (hroot : root ∉ rem) (x : A) :
    G'.Member root x ↔ (G.Member root x ∧ x ∉ rem) ∨ x ∈ add := by
  have hrem : ∀ r ∈ rem, G.Member root r := by
    intro r hr
    have hold := hg.tail (List.mem_of_getElem? S.old_kid)
    rcases S.rem_kid r hr with rfl | hr
    · exact hold
    · exact hold.tail hr
  constructor
  · intro h
    induction h with
    | refl => exact Or.inl ⟨ReflTransGen.refl, hroot⟩
    | tail hpath hc ih =>
        rename_i y c
        by_cases hadd : c ∈ add
        · exact Or.inr hadd
        refine Or.inl ?_
        rcases ih with ⟨hy, hyrem⟩ | hy
        · have hyp := R.member_pub hy
          have hcG : ∃ j, (G.kids y)[j]? = some c ∧ (y = g → j ≠ ix) := by
            by_cases hyg : y = g
            · subst hyg
              obtain ⟨j, hj⟩ := List.getElem?_of_mem hc
              rw [S.kids_g, List.getElem?_set] at hj
              split at hj
              · split at hj
                · cases hj
                  exact absurd S.new_mem hadd
                · cases hj
              · rename_i hne
                exact ⟨j, hj, fun _ => Ne.symm hne⟩
            · rw [Kid, S.kids_eq y hyp hyg] at hc
              obtain ⟨j, hj⟩ := List.getElem?_of_mem hc
              exact ⟨j, hj, fun h => absurd h hyg⟩
          obtain ⟨j, hj, hjne⟩ := hcG
          refine ⟨hy.tail (List.mem_of_getElem? hj), fun hcrem => ?_⟩
          -- a removed node has its parent in `rem`, or is `old` at the changed pointer
          rcases S.rem_kid c hcrem with rfl | hcold
          · obtain ⟨rfl, rfl⟩ := R.parent_unique hy hg hj S.old_kid
            exact hjne rfl rfl
          · obtain ⟨i, hi⟩ := List.getElem?_of_mem hcold
            obtain ⟨rfl, -⟩ := R.parent_unique hy (hrem old S.old_mem) hj hi
            exact hyrem S.old_mem
        · obtain ⟨⟨q, hq, hcq⟩, hcrem⟩ := (S.exits c).mpr ⟨⟨y, hy, hc⟩, hadd⟩
          exact ⟨(hrem q hq).tail hcq, hcrem⟩
  · rintro (⟨h, hx⟩ | h)
    · induction h with
      | refl => exact ReflTransGen.refl
      | tail hy hc ih =>
          rename_i y c
          by_cases hyrem : y ∈ rem
          · obtain ⟨⟨q, hq, hcq⟩, -⟩ := (S.exits c).mp ⟨⟨y, hyrem, hc⟩, hx⟩
            exact (S.member_add R hg hq).tail hcq
          · refine (ih hyrem).tail (S.kid_kept (R.member_pub hy) ?_ hc)
            rintro rfl
            exact hx S.old_mem
    · exact S.member_add R hg h

/-- A step of a search is kept unless it is the changed pointer. -/
theorem next_kept (S : G.Splice G' Pub g ix old new rem add) {k : K} {x c : A} (hx : Pub x)
    (h : G.Next k x c) (hne : ¬ (x = g ∧ G.dir k g = ix)) : G'.Next k x c := by
  rw [Next, S.dir_eq k x hx]
  by_cases hxg : x = g
  · subst hxg
    rw [S.kids_g, List.getElem?_set_ne (fun h => hne ⟨rfl, h.symm⟩)]
    exact h
  · rw [S.kids_eq x hx hxg]
    exact h

/-- **A search that would find a remaining member still finds it.** -/
theorem reaches (S : G.Splice G' Pub g ix old new rem add) (R : G.Ranged root Pub range pos)
    (R' : G'.Ranged root Pub' range' pos') (hrange : ∀ x, Pub x → range' x = range x)
    (hpos : ∀ x, Pub x → pos' x = pos x) (hg : G.Member root g) {k : K} {x y : A} (hx : Pub x)
    (hk : k ∈ range x) (h : G.Reaches k x y) (hy : G'.Member root y) : G'.Reaches k x y := by
  have hyp := R.reaches_pub h hx
  induction h using ReflTransGen.head_induction_on with
  | refl => exact ReflTransGen.refl
  | head hxc hcy ih =>
      rename_i x c
      have hcp := R.kid_pub x c hx hxc.kid
      by_cases hedge : x = g ∧ G.dir k g = ix
      · -- the changed pointer: both ends are members, so the way from `g` goes on to `y`
        obtain ⟨rfl, -⟩ := hedge
        have hgp := R.member_pub hg
        have hky := R.mem_of_reaches hx hk (ReflTransGen.head hxc hcy)
        refine R'.reaches_of_pos_le (S.member_above R hg hg (le_refl _)) hy
          (by rwa [hrange _ hgp]) (by rwa [hrange _ hyp]) ?_
        rw [hpos _ hgp, hpos _ hyp]
        exact R.pos_le (ReflTransGen.head hxc hcy) hx
      · exact ReflTransGen.head (S.next_kept hx hxc hedge)
          (ih hcp (R.mem_of_next hx hk hxc))

/-- Where a search ends after the change: at a member, or where it would have ended before. -/
theorem reaches_inv (S : G.Splice G' Pub g ix old new rem add) (R : G.Ranged root Pub range pos)
    (hg : G.Member root g) {k : K} {x y : A} (hx : Pub x) (h : G'.Reaches k x y) :
    G.Reaches k x y ∨ G'.Member root y := by
  induction h using ReflTransGen.head_induction_on with
  | refl => exact Or.inl ReflTransGen.refl
  | head hxc hcy ih =>
      rename_i x c
      by_cases hxg : x = g
      · subst hxg
        refine Or.inr ?_
        have hmem := (S.member_above R hg hg (le_refl _)).tail hxc.kid
        exact hmem.trans (Reaches.kids hcy)
      · have hnext : G.Next k x c := by
          rw [Next, S.dir_eq k x hx, S.kids_eq x hx hxg] at hxc
          exact hxc
        rcases ih (R.kid_pub x c hx hnext.kid) with h | h
        · exact Or.inl (ReflTransGen.head hnext h)
        · exact Or.inr h

end Splice

/-! ## What is cut off -/

/-- The published nodes `B` are cut off: no pointer leads into them from another node. -/
structure Cut (G : RangeGraph K A) (root : A) (Pub : A → Prop) (B : Set A) : Prop where
  pub : ∀ x ∈ B, Pub x
  root_not_mem : root ∉ B
  kid_not_mem : ∀ x c, Pub x → x ∉ B → c ∈ G.kids x → c ∉ B

section Cut

variable [LinearOrder P] {G G' : RangeGraph K A} {root g old new : A} {ix : Nat}
  {rem add : List A} {Pub Pub' : A → Prop} {range : A → Set K} {pos : A → P} {B : Set A}

/-- What is not in the structure is cut off. -/
theorem cut_nonmembers (G : RangeGraph K A) (root : A) (Pub : A → Prop) :
    G.Cut root Pub {x | Pub x ∧ ¬ G.Member root x} where
  pub := fun _ hx => hx.1
  root_not_mem := fun hx => hx.2 ReflTransGen.refl
  kid_not_mem := by
    intro x c hx hxB hc hcB
    by_cases hm : G.Member root x
    · exact hcB.2 (hm.tail hc)
    · exact hxB ⟨hx, hm⟩

theorem Cut.member_not_mem (C : G.Cut root Pub B) (R : G.Ranged root Pub range pos) {x : A}
    (h : G.Member root x) : x ∉ B := by
  induction h with
  | refl => exact C.root_not_mem
  | tail hy hc ih => exact C.kid_not_mem _ _ (R.member_pub hy) ih hc

/-- **What splices remove stays cut off**, whatever else is changed later. -/
theorem Splice.cut (S : G.Splice G' Pub g ix old new rem add) (R : G.Ranged root Pub range pos)
    (hg : G.Member root g) (hPub : ∀ x, Pub x → Pub' x) (hPub' : ∀ x, Pub' x → Pub x ∨ x ∈ add)
    (C : G.Cut root Pub B) : G'.Cut root Pub' B where
  pub := fun x hx => hPub x (C.pub x hx)
  root_not_mem := C.root_not_mem
  kid_not_mem := by
    have hadd : ∀ a ∈ add, a ∉ B := fun a ha hB => S.fresh a ha (C.pub a hB)
    have hold := hg.tail (List.mem_of_getElem? S.old_kid)
    have hrem : ∀ r ∈ rem, G.Member root r := by
      intro r hr
      rcases S.rem_kid r hr with rfl | hr
      · exact hold
      · exact hold.tail hr
    intro x c hx hxB hc
    by_cases hca : c ∈ add
    · exact hadd c hca
    rcases hPub' x hx with hx | hx
    · by_cases hxg : x = g
      · subst hxg
        rw [S.kids_g] at hc
        rcases List.mem_or_eq_of_mem_set hc with hc | rfl
        · exact C.kid_not_mem x c hx hxB hc
        · exact absurd S.new_mem hca
      · rw [S.kids_eq x hx hxg] at hc
        exact C.kid_not_mem x c hx hxB hc
    · -- the children of a new node were children of the removed ones
      obtain ⟨⟨q, hq, hcq⟩, -⟩ := (S.exits c).mpr ⟨⟨x, hx, hc⟩, hca⟩
      have hqm := hrem q hq
      exact C.kid_not_mem q c (R.member_pub hqm) (C.member_not_mem R hqm) hcq

end Cut

end RangeGraph
