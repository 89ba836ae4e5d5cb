import Pacer.Abtree.Change

set_option autoImplicit false

/-! # The updates of a leaf

Replace, insert, overflow and erase. Each makes a leaf that is well formed, that has keys of the
old one and the inserted one only, and whose value is the old one at all other keys. One leaf that
takes the place of another fits (`fits_leaf`), and so do the two halves of a full leaf under a new
parent (`fits_overflow`).
-/

namespace Pacer.Abtree

open Separators RangeGraph

variable {K : Type} [LinearOrder K]

/-! ## What a leaf holds -/

theorem NodeOk.leaf_keys_length {b : Nat} {n : Node K} (h : NodeOk b n) (hleaf : n.leaf = true) :
    n.keys.length = n.size := by
  rw [h.keys_length, Node.getKeyCount_leaf hleaf]

theorem NodeOk.hasKey_iff {b : Nat} {n : Node K} (h : NodeOk b n) (hleaf : n.leaf = true)
    (key : K) : n.hasKey key = true ↔ key ∈ n.keys := by
  rw [← getElem_keyIndex_iff (h.leaf_sorted hleaf) key, Node.hasKey, h.getKeyIndex_eq,
    ← h.keys_length]
  simp only [Bool.and_eq_true, decide_eq_true_eq, beq_iff_eq]
  exact ⟨fun hk => hk.2, fun hk => ⟨(List.getElem?_eq_some_iff.mp hk).1, hk⟩⟩

theorem NodeOk.value_eq {b : Nat} {n : Node K} (h : NodeOk b n) (hleaf : n.leaf = true)
    (key : K) : n.value key = lookup n.keys n.ptrs key := by
  rw [Node.value, lookup, h.getKeyIndex_eq]
  by_cases hk : key ∈ n.keys
  · rw [if_pos ((h.hasKey_iff hleaf key).mpr hk),
      if_pos ((getElem_keyIndex_iff (h.leaf_sorted hleaf) key).mpr hk)]
  · rw [if_neg (fun hc => hk ((h.hasKey_iff hleaf key).mp hc)),
      if_neg (fun hc => hk ((getElem_keyIndex_iff (h.leaf_sorted hleaf) key).mp hc))]

/-- A leaf cut where `key` belongs. -/
theorem NodeOk.leaf_cut {b : Nat} {n : Node K} (h : NodeOk b n) (hleaf : n.leaf = true)
    (key : K) : ∃ A B V W, n.keys = A ++ B ∧ n.ptrs = V ++ W ∧ A.length = n.getKeyIndex key
      ∧ V.length = A.length ∧ W.length = B.length ∧ (∀ x ∈ A, x < key) ∧ ∀ x ∈ B, key ≤ x := by
  have hlen := h.leaf_keys_length hleaf
  have hptrs := h.ptrs_length
  have hle := keyIndex_le n.keys key
  rw [h.getKeyIndex_eq]
  refine ⟨n.keys.take (keyIndex n.keys key), n.keys.drop (keyIndex n.keys key),
    n.ptrs.take (keyIndex n.keys key), n.ptrs.drop (keyIndex n.keys key),
    (List.take_append_drop _ _).symm, (List.take_append_drop _ _).symm, ?_, ?_, ?_,
    fun x hx => lt_of_mem_take_keyIndex hx,
    fun x hx => le_of_mem_drop_keyIndex (h.leaf_sorted hleaf) hx⟩
  · rw [List.length_take, min_eq_left hle]
  · rw [List.length_take, List.length_take]
    omega
  · rw [List.length_drop, List.length_drop, hlen, hptrs]

/-- A leaf cut at a pair that it holds. -/
theorem NodeOk.leaf_found {b : Nat} {n : Node K} (h : NodeOk b n) (hleaf : n.leaf = true)
    {key : K} (hkey : key ∈ n.keys) : ∃ A B V W v, n.keys = A ++ key :: B ∧ n.ptrs = V ++ v :: W
      ∧ A.length = n.getKeyIndex key ∧ V.length = A.length ∧ W.length = B.length := by
  obtain ⟨A, B, V, W, hk, hp, hA, hV, hW, hlt, hge⟩ := h.leaf_cut hleaf key
  cases B with
  | nil =>
      rw [hk, List.append_nil] at hkey
      exact absurd (hlt key hkey) (lt_irrefl key)
  | cons y B =>
      cases W with
      | nil => simp at hW
      | cons v W =>
          have hy : y = key := by
            have hs := h.leaf_sorted hleaf
            rw [hk] at hs hkey
            rcases List.mem_append.mp hkey with hmem | hmem
            · exact absurd (hlt key hmem) (lt_irrefl key)
            · rcases List.mem_cons.mp hmem with rfl | hmem
              · rfl
              · have := (List.pairwise_cons.mp (List.pairwise_append.mp hs).2.1).1 key hmem
                exact absurd (hge y List.mem_cons_self) (not_le.mpr this)
          subst hy
          exact ⟨A, B, V, W, v, hk, hp, hA, hV, by simpa using hW⟩

/-- A leaf cut where a key that it does not hold belongs. -/
theorem NodeOk.leaf_absent {b : Nat} {n : Node K} (h : NodeOk b n) (hleaf : n.leaf = true)
    {key : K} (hkey : key ∉ n.keys) : ∃ A B V W, n.keys = A ++ B ∧ n.ptrs = V ++ W
      ∧ A.length = n.getKeyIndex key ∧ V.length = A.length ∧ W.length = B.length
      ∧ (A ++ key :: B).Pairwise (· < ·) := by
  obtain ⟨A, B, V, W, hk, hp, hA, hV, hW, hlt, hge⟩ := h.leaf_cut hleaf key
  have hs := h.leaf_sorted hleaf
  rw [hk] at hs hkey
  obtain ⟨hsA, hsB, hAB⟩ := List.pairwise_append.mp hs
  refine ⟨A, B, V, W, hk, hp, hA, hV, hW, List.pairwise_append.mpr ⟨hsA, ?_, ?_⟩⟩
  · refine List.pairwise_cons.mpr ⟨fun x hx => lt_of_le_of_ne (hge x hx) ?_, hsB⟩
    rintro rfl
    exact hkey (List.mem_append_right A hx)
  · intro x hx y hy
    rcases List.mem_cons.mp hy with rfl | hy
    · exact hlt x hx
    · exact hAB x hx y hy

theorem NodeOk.keysWith_eq {b : Nat} {l : Node K} (h : NodeOk b l) {A B : List K} {key : K}
    (hk : l.keys = A ++ B) (hA : A.length = l.getKeyIndex key) :
    keysWith l (l.getKeyIndex key) key = A ++ key :: B := by
  rw [keysWith, arraycopy_zero, arraycopy_rest h.keys_length, ← hA, hk, List.take_left,
    List.drop_left]

theorem NodeOk.ptrsWith_eq {b : Nat} {l : Node K} (h : NodeOk b l) {V W : List Nat} {i : Nat}
    (value : Nat) (hp : l.ptrs = V ++ W) (hV : V.length = i) :
    ptrsWith l i value = V ++ value :: W := by
  rw [ptrsWith, arraycopy_zero, Node.getABDegree, arraycopy_rest h.ptrs_length, ← hV, hp,
    List.take_left, List.drop_left]

/-! ## The new leaves -/

/-- The leaf `n` can take the place of the leaf `l` in an update at `key` that makes the value
`v`. -/
structure LeafStep (b : Nat) (l n : Node K) (key : K) (v : Option Nat) : Prop where
  ok : NodeOk b n
  leaf : n.leaf = true
  keys : ∀ x ∈ n.keys, x = key ∨ x ∈ l.keys
  search : n.searchKey = l.searchKey ∨ n.searchKey ∈ l.keys
  value : ∀ k, n.value k = if k = key then v else l.value k

theorem replaceValue_step {b : Nat} {l : Node K} (h : NodeOk b l) (hleaf : l.leaf = true)
    {key : K} (hkey : key ∈ l.keys) (value : Nat) :
    LeafStep b l (replaceValue l (l.getKeyIndex key) value) key (some value) := by
  obtain ⟨A, B, V, W, v, hk, hp, hA, hV, hW⟩ := h.leaf_found hleaf hkey
  have hkeys : (replaceValue l (l.getKeyIndex key) value).keys = A ++ key :: B := by
    rw [replaceValue, arraycopy_all h.keys_length, hk]
  have hptrs : (replaceValue l (l.getKeyIndex key) value).ptrs = V ++ value :: W := by
    rw [replaceValue, Node.getABDegree, arraycopy_all h.ptrs_length, hp, ← hA, ← hV]
    simp
  have hok : NodeOk b (replaceValue l (l.getKeyIndex key) value) :=
    { ptrs_length := by
        rw [hptrs, replaceValue, ← h.ptrs_length, hp]
        simp
      keys_length := by
        rw [hkeys, ← hk, h.leaf_keys_length hleaf]
        rfl
      size_le := h.size_le
      leaf_weight := fun _ => rfl
      leaf_sorted := fun _ => by
        rw [hkeys, ← hk]
        exact h.leaf_sorted hleaf
      inner_size := fun hl => Bool.noConfusion hl
      zero_size := fun hw => Bool.noConfusion hw }
  refine ⟨hok, rfl, fun x hx => Or.inr ?_, Or.inl rfl, fun k => ?_⟩
  · rwa [hk, ← hkeys]
  · have hs : (A ++ key :: B).Pairwise (· < ·) := hk ▸ h.leaf_sorted hleaf
    rw [hok.value_eq rfl, h.value_eq hleaf, hkeys, hptrs, hk, hp, lookup_insert hs hV,
      lookup_insert hs hV]
    split <;> rfl

theorem insertPair_step {b : Nat} {l : Node K} (h : NodeOk b l) (hleaf : l.leaf = true)
    {key : K} (hkey : key ∉ l.keys) (hroom : l.getKeyCount < b) (value : Nat) :
    LeafStep b l (insertPair l (l.getKeyIndex key) key value) key (some value) := by
  obtain ⟨A, B, V, W, hk, hp, hA, hV, hW, hs⟩ := h.leaf_absent hleaf hkey
  have hkeys : (insertPair l (l.getKeyIndex key) key value).keys = A ++ key :: B :=
    h.keysWith_eq hk hA
  have hptrs : (insertPair l (l.getKeyIndex key) key value).ptrs = V ++ value :: W :=
    h.ptrsWith_eq value hp (hV.trans hA)
  have hsize : A.length + B.length = l.size := by
    rw [← List.length_append, ← hk, h.leaf_keys_length hleaf]
  have hok : NodeOk b (insertPair l (l.getKeyIndex key) key value) :=
    { ptrs_length := by
        have hnew : (insertPair l (l.getKeyIndex key) key value).size = l.size + 1 := rfl
        rw [hptrs, List.length_append, List.length_cons, hV, hW]
        omega
      keys_length := by
        have hnew : (insertPair l (l.getKeyIndex key) key value).getKeyCount = l.size + 1 :=
          Node.getKeyCount_leaf hleaf
        rw [hkeys, List.length_append, List.length_cons]
        omega
      size_le := by
        rw [Node.getKeyCount_leaf hleaf] at hroom
        exact hroom
      leaf_weight := fun _ => h.leaf_weight hleaf
      leaf_sorted := fun _ => by rwa [hkeys]
      inner_size := fun hl => absurd (hleaf.symm.trans hl) (by simp)
      zero_size := fun hw => absurd ((h.leaf_weight hleaf).symm.trans hw) (by simp) }
  refine ⟨hok, hleaf, fun x hx => ?_, Or.inl rfl, fun k => ?_⟩
  · rw [hkeys, List.mem_append, List.mem_cons] at hx
    rw [hk, List.mem_append]
    tauto
  · rw [hok.value_eq hleaf, h.value_eq hleaf, hkeys, hptrs, hk, hp, lookup_insert hs hV]

theorem eraseKey_step {b : Nat} {l : Node K} (h : NodeOk b l) (hleaf : l.leaf = true)
    {key : K} (hkey : key ∈ l.keys) :
    ∃ n, eraseKey l (l.getKeyIndex key) = some n ∧ LeafStep b l n key none := by
  obtain ⟨A, B, V, W, v, hk, hp, hA, hV, hW⟩ := h.leaf_found hleaf hkey
  have hs : (A ++ key :: B).Pairwise (· < ·) := hk ▸ h.leaf_sorted hleaf
  have hsize : A.length + B.length + 1 = l.size := by
    rw [← h.leaf_keys_length hleaf, hk, List.length_append, List.length_cons]
    omega
  obtain ⟨first, rest, hfirst⟩ : ∃ first rest, l.keys = first :: rest :=
    List.exists_cons_of_ne_nil (List.ne_nil_of_mem hkey)
  have hkeys : arraycopy l.keys 0 (l.getKeyIndex key) ++ arraycopy l.keys (l.getKeyIndex key + 1)
      (l.getKeyCount - (l.getKeyIndex key + 1)) = A ++ B := by
    rw [arraycopy_zero, arraycopy_rest h.keys_length, ← hA, hk, List.take_left]
    simp [List.drop_append]
  have hptrs : arraycopy l.ptrs 0 (l.getKeyIndex key) ++ arraycopy l.ptrs (l.getKeyIndex key + 1)
      (l.getABDegree - (l.getKeyIndex key + 1)) = V ++ W := by
    rw [arraycopy_zero, Node.getABDegree, arraycopy_rest h.ptrs_length, ← hA, ← hV, hp,
      List.take_left]
    simp [List.drop_append]
  obtain ⟨hsA, hsB, hAB⟩ := List.pairwise_append.mp hs
  have hfirst' : l.keys[0]? = some first := by rw [hfirst]; rfl
  refine ⟨⟨true, true, l.size - 1, first, A ++ B, V ++ W⟩, ?_, ?_⟩
  · simp only [eraseKey, hfirst', hkeys, hptrs, Option.bind_eq_bind, Option.bind_some]
  have hok : NodeOk b (⟨true, true, l.size - 1, first, A ++ B, V ++ W⟩ : Node K) :=
    { ptrs_length := by
        rw [List.length_append, hV, hW]
        dsimp only
        omega
      keys_length := by
        rw [List.length_append, Node.getKeyCount_leaf rfl]
        dsimp only
        omega
      size_le := le_trans (Nat.sub_le _ _) h.size_le
      leaf_weight := fun _ => rfl
      leaf_sorted := fun _ => List.pairwise_append.mpr
        ⟨hsA, (List.pairwise_cons.mp hsB).2, fun x hx y hy =>
          hAB x hx y (List.mem_cons_of_mem _ hy)⟩
      inner_size := fun hl => Bool.noConfusion hl
      zero_size := fun hw => Bool.noConfusion hw }
  refine ⟨hok, rfl, fun x hx => Or.inr ?_, Or.inr ?_, fun k => ?_⟩
  · rw [hk, List.mem_append, List.mem_cons]
    rcases List.mem_append.mp hx with hx | hx
    · exact Or.inl hx
    · exact Or.inr (Or.inr hx)
  · rw [hfirst]
    exact List.mem_cons_self
  · rw [hok.value_eq rfl, h.value_eq hleaf, hk, hp, lookup_insert hs hV]
    split
    · -- the erased key is on neither side
      rename_i hkk
      subst hkk
      have hnA : k ∉ A := fun hmem => absurd (hAB k hmem k List.mem_cons_self) (lt_irrefl k)
      have hnB : k ∉ B := fun hmem =>
        absurd ((List.pairwise_cons.mp hsB).1 k hmem) (lt_irrefl k)
      rw [lookup, if_neg]
      intro hmem
      rcases List.mem_append.mp (List.mem_of_getElem? hmem) with hmem | hmem
      · exact hnA hmem
      · exact hnB hmem
    · rfl

/-- One half of a full leaf `l` after `key` was inserted: the keys in `S`. -/
structure HalfStep (b : Nat) (l n : Node K) (key : K) (v : Nat) (S : Set K) : Prop where
  ok : NodeOk b n
  leaf : n.leaf = true
  keys : ∀ x ∈ n.keys, x ∈ S ∧ (x = key ∨ x ∈ l.keys)
  search : n.searchKey ∈ n.keys
  value : ∀ k ∈ S, n.value k = if k = key then some v else l.value k

theorem overflow_step {b : Nat} (hb : 2 ≤ b) {l : Node K} (h : NodeOk b l)
    (hleaf : l.leaf = true) {key : K} (hkey : key ∉ l.keys) (hfull : ¬ l.getKeyCount < b)
    (value left right : Nat) (root : Bool) :
    ∃ lo hi mid, overflow b l (l.getKeyIndex key) key value left right root
        = some (lo, hi, pairNode root mid left right)
      ∧ (mid = key ∨ mid ∈ l.keys)
      ∧ HalfStep b l lo key value (Set.Iio mid) ∧ HalfStep b l hi key value (Set.Ici mid) := by
  obtain ⟨A, B, V, W, hk, hp, hA, hV, hW, hs⟩ := h.leaf_absent hleaf hkey
  rw [Node.getKeyCount_leaf hleaf] at hfull
  have hsize : l.size = b := Nat.le_antisymm h.size_le (Nat.le_of_not_lt hfull)
  have hlen : (A ++ key :: B).length = b + 1 := by
    have := h.leaf_keys_length hleaf
    rw [hk, List.length_append] at this
    rw [List.length_append, List.length_cons]
    omega
  have hplen : (V ++ value :: W).length = b + 1 := by
    rw [List.length_append, List.length_cons] at hlen ⊢
    omega
  have hkeys := h.keysWith_eq hk hA
  have hptrs := h.ptrsWith_eq value hp (hV.trans hA)
  have hmem : ∀ x ∈ A ++ key :: B, x = key ∨ x ∈ l.keys := by
    intro x hx
    rw [List.mem_append, List.mem_cons] at hx
    rw [hk, List.mem_append]
    tauto
  have hvalue : ∀ k, lookup (A ++ key :: B) (V ++ value :: W) k
      = if k = key then some value else l.value k := by
    intro k
    rw [lookup_insert hs hV, h.value_eq hleaf, hk, hp]
  generalize hF : A ++ key :: B = F at hs hlen hkeys hmem hvalue
  generalize hP : V ++ value :: W = P at hplen hptrs hvalue
  -- the full arrays are cut at `size1`, and `mid` is the first key of the right half
  obtain ⟨mid, rest, hdrop⟩ : ∃ mid rest, F.drop ((b + 1) / 2) = mid :: rest := by
    refine List.exists_cons_of_ne_nil fun hnil => ?_
    have := List.drop_eq_nil_iff.mp hnil
    omega
  have hmid : F[(b + 1) / 2]? = some mid := by
    have := congrArg (fun l => l[0]?) hdrop
    simpa using this
  obtain ⟨first, others, hfirst⟩ : ∃ first others, F.take ((b + 1) / 2) = first :: others := by
    refine List.exists_cons_of_ne_nil fun hnil => ?_
    rcases List.take_eq_nil_iff.mp hnil with h0 | h0
    · omega
    · rw [h0] at hlen
      simp at hlen
  have hhead : F[0]? = some first := by
    rw [← List.take_append_drop ((b + 1) / 2) F, hfirst]
    rfl
  have hcut := List.take_append_drop ((b + 1) / 2) F
  have hpcut := List.take_append_drop ((b + 1) / 2) P
  have htake : (F.take ((b + 1) / 2)).length = (b + 1) / 2 := by
    rw [List.length_take]
    omega
  have hptake : (P.take ((b + 1) / 2)).length = (b + 1) / 2 := by
    rw [List.length_take]
    omega
  have hs' := hs
  rw [← hcut] at hs'
  obtain ⟨hslo, hshi, hlohi⟩ := List.pairwise_append.mp hs'
  rw [hdrop] at hshi hlohi
  have hlo : ∀ x ∈ F.take ((b + 1) / 2), x < mid := fun x hx =>
    hlohi x hx mid List.mem_cons_self
  have hhi : ∀ x ∈ F.drop ((b + 1) / 2), mid ≤ x := by
    intro x hx
    rw [hdrop] at hx
    rcases List.mem_cons.mp hx with rfl | hx
    · exact le_refl _
    · exact le_of_lt ((List.pairwise_cons.mp hshi).1 x hx)
  refine ⟨⟨true, true, (b + 1) / 2, first, F.take ((b + 1) / 2), P.take ((b + 1) / 2)⟩,
    ⟨true, true, b + 1 - (b + 1) / 2, mid, F.drop ((b + 1) / 2), P.drop ((b + 1) / 2)⟩, mid,
    ?_, hmem mid (List.mem_of_getElem? hmid), ?_, ?_⟩
  · simp only [overflow, hkeys, hptrs, hhead, hmid, Option.bind_eq_bind, Option.bind_some,
      arraycopy_zero, arraycopy_rest hlen, arraycopy_rest hplen, pairNode]
  · have hok : NodeOk b (⟨true, true, (b + 1) / 2, first, F.take ((b + 1) / 2),
        P.take ((b + 1) / 2)⟩ : Node K) :=
      { ptrs_length := hptake
        keys_length := htake
        size_le := by dsimp only; omega
        leaf_weight := fun _ => rfl
        leaf_sorted := fun _ => hslo
        inner_size := fun hl => Bool.noConfusion hl
        zero_size := fun hw => Bool.noConfusion hw }
    refine ⟨hok, rfl, fun x hx => ⟨hlo x hx, hmem x (List.mem_of_mem_take hx)⟩, ?_, ?_⟩
    · dsimp only
      rw [hfirst]
      exact List.mem_cons_self
    · intro k hkmid
      rw [hok.value_eq rfl, ← hvalue k, ← hcut, ← hpcut, lookup_append_left (by rwa [hcut])
        (hptake.trans htake.symm), hcut, hpcut]
      exact fun hkd => absurd (hhi k hkd) (not_le.mpr hkmid)
  · have hok : NodeOk b (⟨true, true, b + 1 - (b + 1) / 2, mid, F.drop ((b + 1) / 2),
        P.drop ((b + 1) / 2)⟩ : Node K) :=
      { ptrs_length := by rw [List.length_drop, hplen]
        keys_length := by rw [List.length_drop, hlen]; rfl
        size_le := by dsimp only; omega
        leaf_weight := fun _ => rfl
        leaf_sorted := fun _ => by rw [hdrop]; exact hshi
        inner_size := fun hl => Bool.noConfusion hl
        zero_size := fun hw => Bool.noConfusion hw }
    refine ⟨hok, rfl, fun x hx => ⟨hhi x hx, hmem x (List.mem_of_mem_drop hx)⟩, ?_, ?_⟩
    · dsimp only
      rw [hdrop]
      exact List.mem_cons_self
    · intro k hkmid
      rw [hok.value_eq rfl, ← hvalue k, ← hcut, ← hpcut, lookup_append_right (by rwa [hcut])
        (hptake.trans htake.symm), hcut, hpcut]
      exact fun hkt => absurd (hlo k hkt) (not_lt.mpr hkmid)

/-! ## The change of the tree -/

section Fits

variable {b : Nat} {h : Heap K} {lab : Labels K} {V : List Nat} {p ix x : Nat} {l : Node K}

/-- A leaf is replaced by a leaf. -/
theorem fits_leaf (L : Labelled b h lab) (hp : h.Member p) (hchild : h.child p ix = some x)
    (hx : h.node x = some l) (hleaf : l.leaf = true) (hV : p ∈ V) {key : K}
    (hkey : key ∈ (lab x).range) {n : Node K} {v : Option Nat} (S : LeafStep b l n key v) :
    Fits b h lab V [] p ix x 0 [n] [x] [⟨(lab x).range, 0, (lab x).pos⟩] := by
  have hat := L.node_at x l hx
  have hkid : x ∈ h.graph.kids p := List.mem_of_getElem? (Heap.child_eq_some.mp hchild)
  have hkids : n.kids = [] := Node.kids_leaf S.leaf
  have hkeys : ∀ k ∈ n.keys, k ∈ (lab x).range := by
    intro k hk
    rcases S.keys k hk with rfl | hk
    · exact hkey
    · exact hat.keys_mem k hk
  refine
    { member := hp
      old_kid := hchild
      old_mem := List.mem_singleton_self x
      rem_kid := fun r hr => Or.inl (List.mem_singleton.mp hr)
      finalized := ?_
      frozen := ⟨hV, List.nil_subset V⟩
      labs_length := rfl
      exists_top := ⟨n, _, rfl, rfl, ?_, rfl, ?_, ?_, ?_⟩
      node_ok := ?_
      node_at := ?_
      exits := ?_ }
  · intro y m hy
    constructor
    · intro hmem
      cases hmem
    · rintro ⟨hmem, hinner⟩
      rw [List.mem_singleton.mp hmem, hx] at hy
      cases hy
      rw [hleaf] at hinner
      cases hinner
  · intro i hi
    exact Or.inl (by simpa using hi)
  · exact L.ranged.kid_pos p x (L.ranged.member_pub hp) hkid
  · intro _
    rw [S.ok.leaf_weight S.leaf, hat.leaf_level hleaf, Heap.weight_eq hx,
      (L.node_ok x l hx).leaf_weight hleaf]
  · exact fun _ => S.ok.leaf_weight S.leaf
  · intro i m hm
    obtain ⟨rfl, rfl⟩ := getElem?_one hm
    exact S.ok
  · intro i m hm
    obtain ⟨rfl, rfl⟩ := getElem?_one hm
    have hlab : lab.extend h [⟨(lab x).range, 0, (lab x).pos⟩] (h.length + 0)
        = ⟨(lab x).range, 0, (lab x).pos⟩ := Labels.extend_new rfl
    refine nodeAt_leaf S.leaf ?_ ?_ ?_ <;> rw [hlab]
    · rcases S.search with heq | hmem
      · rw [heq]
        exact hat.search_mem
      · exact hat.keys_mem _ hmem
    · exact hkeys
  · intro c _
    constructor
    · rintro ⟨⟨q, hq, hc⟩, -⟩
      rw [List.mem_singleton.mp hq, Heap.graph_kids hx, Node.kids_leaf hleaf] at hc
      cases hc
    · rintro ⟨m, hm, hc⟩
      rw [List.mem_singleton.mp hm, hkids] at hc
      cases hc

theorem leafStep_values (hx : h.node x = some l) {key : K} {n : Node K} {v : Option Nat}
    (S : LeafStep b l n key v) (labs : List (Label K)) :
    Values h lab [n] [x] labs fun k u => if k = key then v else u := by
  intro k e en he hen _ _ j m t hm _ _ _
  rw [List.mem_singleton.mp he, hx] at hen
  cases hen
  obtain ⟨rfl, rfl⟩ := getElem?_one hm
  exact S.value k

/-- The labels of the two halves of a leaf with the label `l` and of their new parent. -/
def overflowLabels (l : Label K) (mid : K) : List (Label K) :=
  [⟨l.range ∩ Set.Iio mid, 0, l.pos + 1⟩, ⟨l.range ∩ Set.Ici mid, 0, l.pos + 1⟩,
    ⟨l.range, 1, l.pos⟩]

/-- A leaf is replaced by two leaves under a new parent. -/
theorem fits_overflow (L : Labelled b h lab) (hb : 2 ≤ b) (hp : h.Member p)
    (hchild : h.child p ix = some x) (hx : h.node x = some l) (hleaf : l.leaf = true)
    (hV : p ∈ V) {key : K} (hkey : key ∈ (lab x).range) {lo hi : Node K} {mid : K} {v : Nat}
    (hmid : mid = key ∨ mid ∈ l.keys) (Slo : HalfStep b l lo key v (Set.Iio mid))
    (Shi : HalfStep b l hi key v (Set.Ici mid)) :
    Fits b h lab V [] p ix x 2
      [lo, hi, pairNode (decide (p = entry)) mid h.length (h.length + 1)] [x]
      (overflowLabels (lab x) mid) := by
  have hat := L.node_at x l hx
  have hkid : x ∈ h.graph.kids p := List.mem_of_getElem? (Heap.child_eq_some.mp hchild)
  have hrange : ∀ k, k = key ∨ k ∈ l.keys → k ∈ (lab x).range := by
    rintro k (rfl | hk)
    · exact hkey
    · exact hat.keys_mem k hk
  have hlab0 : lab.extend h (overflowLabels (lab x) mid) h.length
      = ⟨(lab x).range ∩ Set.Iio mid, 0, (lab x).pos + 1⟩ := Labels.extend_new (i := 0) rfl
  have hlab1 : lab.extend h (overflowLabels (lab x) mid) (h.length + 1)
      = ⟨(lab x).range ∩ Set.Ici mid, 0, (lab x).pos + 1⟩ := Labels.extend_new rfl
  have hlab2 : lab.extend h (overflowLabels (lab x) mid) (h.length + 2)
      = ⟨(lab x).range, 1, (lab x).pos⟩ := Labels.extend_new rfl
  refine
    { member := hp
      old_kid := hchild
      old_mem := List.mem_singleton_self x
      rem_kid := fun r hr => Or.inl (List.mem_singleton.mp hr)
      finalized := ?_
      frozen := ⟨hV, List.nil_subset V⟩
      labs_length := rfl
      exists_top := ⟨_, _, rfl, rfl, ?_, rfl, ?_, ?_, ?_⟩
      node_ok := ?_
      node_at := ?_
      exits := ?_ }
  · intro y m hy
    constructor
    · intro hmem
      cases hmem
    · rintro ⟨hmem, hinner⟩
      rw [List.mem_singleton.mp hmem, hx] at hy
      cases hy
      rw [hleaf] at hinner
      cases hinner
  · intro i hi
    obtain rfl | rfl | rfl : i = 0 ∨ i = 1 ∨ i = 2 := by
      simp only [List.length_cons, List.length_nil] at hi
      omega
    · exact Or.inr (pairNode_kids.mpr (Or.inl rfl))
    · exact Or.inr (pairNode_kids.mpr (Or.inr rfl))
    · exact Or.inl rfl
  · exact L.ranged.kid_pos p x (L.ranged.member_pub hp) hkid
  · intro hne
    rw [hat.leaf_level hleaf, Heap.weight_eq hx, (L.node_ok x l hx).leaf_weight hleaf]
    simp [hne, pairNode]
  · intro heq
    simp [heq, pairNode]
  · intro i m hm
    rcases getElem?_three hm with ⟨rfl, rfl⟩ | ⟨rfl, rfl⟩ | ⟨rfl, rfl⟩
    · exact Slo.ok
    · exact Shi.ok
    · exact pairNode_ok hb _ _ _ _
  · intro i m hm
    rcases getElem?_three hm with ⟨rfl, rfl⟩ | ⟨rfl, rfl⟩ | ⟨rfl, rfl⟩
    · have hin : ∀ k ∈ lo.keys, k ∈ (lab x).range ∩ Set.Iio mid := fun k hk =>
        ⟨hrange k (Slo.keys k hk).2, (Slo.keys k hk).1⟩
      refine nodeAt_leaf Slo.leaf ?_ ?_ ?_ <;> rw [Nat.add_zero, hlab0]
      · exact hin _ Slo.search
      · exact hin
    · have hin : ∀ k ∈ hi.keys, k ∈ (lab x).range ∩ Set.Ici mid := fun k hk =>
        ⟨hrange k (Shi.keys k hk).2, (Shi.keys k hk).1⟩
      refine nodeAt_leaf Shi.leaf ?_ ?_ ?_ <;> rw [hlab1]
      · exact hin _ Shi.search
      · exact hin
    · refine pairNode_at ?_ ?_ ?_ ?_ ?_ ?_
        ⟨Heap.change_weight_head (Slo.ok.leaf_weight Slo.leaf),
          Heap.change_weight_one rfl (Shi.ok.leaf_weight Shi.leaf)⟩ ?_ <;>
        simp only [hlab0, hlab1, hlab2, Heap.change_length]
      · exact hrange mid hmid
      · exact ⟨lo.searchKey, hrange _ (Slo.keys _ Slo.search).2, (Slo.keys _ Slo.search).1⟩
      · simp
      · exact ⟨lt_add_one _, lt_add_one _⟩
      · exact ⟨trivial, trivial⟩
  · intro c hc
    constructor
    · rintro ⟨⟨q, hq, hcq⟩, -⟩
      rw [List.mem_singleton.mp hq, Heap.graph_kids hx, Node.kids_leaf hleaf] at hcq
      cases hcq
    · rintro ⟨m, hm, hcm⟩
      simp only [List.mem_cons, List.not_mem_nil, or_false] at hm
      rcases hm with rfl | rfl | rfl
      · rw [Node.kids_leaf Slo.leaf] at hcm
        cases hcm
      · rw [Node.kids_leaf Shi.leaf] at hcm
        cases hcm
      · have := pairNode_kids.mp hcm
        omega

theorem overflow_values (hx : h.node x = some l) {key mid : K} {lo hi : Node K} {v : Nat}
    {weight : Bool} {left right : Nat} (Slo : HalfStep b l lo key v (Set.Iio mid))
    (Shi : HalfStep b l hi key v (Set.Ici mid)) :
    Values h lab [lo, hi, pairNode weight mid left right] [x] (overflowLabels (lab x) mid)
      fun k u => if k = key then some v else u := by
  intro k e en he hen _ _ j m t hm hml ht hk
  rw [List.mem_singleton.mp he, hx] at hen
  cases hen
  rcases getElem?_three hm with ⟨rfl, rfl⟩ | ⟨rfl, rfl⟩ | ⟨rfl, rfl⟩
  · cases ht
    exact Slo.value k hk.2
  · cases ht
    exact Shi.value k hk.2
  · cases hml

end Fits

end Pacer.Abtree
