import Mathlib.Order.Interval.Set.Basic
import Mathlib.Data.List.Pairwise
import Mathlib.Data.List.Basic

set_option autoImplicit false

/-! # Routing by separators

The two loops of a search in a multiway tree. An inner node has one pointer more than keys, and
a key `k` is routed to the pointer after the last key that is not above `k` (`childIndex`). A leaf
has a value for each key, and `k` is looked up at the first key that is not below it (`keyIndex`,
`lookup`).

`Tiles R ks Ss` says that the separators `ks` cut the set `R` into the pieces `Ss`, none of which
is empty; `Tiles.mem_iff` is what it means for the search. Every restructuring of an inner node is
a combination of three rules: a node is cut at one of its separators (`tiles_cut`), a part of it is
taken out and leaves a hole (`Tiles.hole`), and a hole is filled (`Tiles.fill`).
-/

namespace Separators

variable {K α : Type*} [LinearOrder K]

/-- The number of keys before the first one above `k`. -/
def childIndex : List K → K → Nat
  | [], _ => 0
  | x :: ks, k => if k < x then 0 else childIndex ks k + 1

/-- The number of keys before the first one that is not below `k`. -/
def keyIndex : List K → K → Nat
  | [], _ => 0
  | x :: ks, k => if x < k then keyIndex ks k + 1 else 0

/-- The value stored for `k`. -/
def lookup (ks : List K) (vs : List α) (k : K) : Option α :=
  if ks[keyIndex ks k]? = some k then vs[keyIndex ks k]? else none

/-! ## The pieces of an inner node -/

/-- The separators `ks`, all in `R`, cut `R` into the nonempty pieces `Ss`. -/
def Tiles : Set K → List K → List (Set K) → Prop
  | R, [], [S] => S = R
  | R, x :: ks, S :: Ss =>
      x ∈ R ∧ S = R ∩ Set.Iio x ∧ (R ∩ Set.Iio x).Nonempty ∧ Tiles (R ∩ Set.Ici x) ks Ss
  | _, _, _ => False

@[simp] theorem tiles_nil {R : Set K} {Ss : List (Set K)} : Tiles R [] Ss ↔ Ss = [R] := by
  cases Ss with
  | nil => simp [Tiles]
  | cons S Ss => cases Ss <;> simp [Tiles]

theorem tiles_cons {R : Set K} {x : K} {ks : List K} {Ss : List (Set K)} :
    Tiles R (x :: ks) Ss ↔ x ∈ R ∧ (R ∩ Set.Iio x).Nonempty
      ∧ ∃ Ts, Ss = (R ∩ Set.Iio x) :: Ts ∧ Tiles (R ∩ Set.Ici x) ks Ts := by
  cases Ss with
  | nil => simp [Tiles]
  | cons S Ss =>
      simp only [Tiles, List.cons.injEq]
      constructor
      · rintro ⟨hx, hS, hne, ht⟩
        exact ⟨hx, hne, Ss, ⟨hS, rfl⟩, ht⟩
      · rintro ⟨hx, hne, Ts, ⟨hS, rfl⟩, ht⟩
        exact ⟨hx, hS, hne, ht⟩

theorem Tiles.length_eq {R : Set K} {ks : List K} {Ss : List (Set K)} (h : Tiles R ks Ss) :
    Ss.length = ks.length + 1 := by
  induction ks generalizing R Ss with
  | nil => simp [tiles_nil.mp h]
  | cons x ks ih =>
      obtain ⟨-, -, Ts, rfl, ht⟩ := tiles_cons.mp h
      simp [ih ht]

theorem childIndex_le (ks : List K) (k : K) : childIndex ks k ≤ ks.length := by
  induction ks with
  | nil => exact Nat.le_refl 0
  | cons x ks ih =>
      simp only [childIndex, List.length_cons]
      split <;> omega

/-- **The search finds the piece**: the `j`-th piece has the keys that are routed to `j`. -/
theorem Tiles.mem_iff {R : Set K} {ks : List K} {Ss : List (Set K)} (h : Tiles R ks Ss) {j : Nat}
    {S : Set K} (hj : Ss[j]? = some S) (k : K) : k ∈ S ↔ k ∈ R ∧ childIndex ks k = j := by
  induction ks generalizing R Ss j with
  | nil =>
      rw [tiles_nil.mp h] at hj
      cases j with
      | zero =>
          obtain rfl : R = S := by simpa using hj
          simp [childIndex]
      | succ j => simp at hj
  | cons x ks ih =>
      obtain ⟨-, -, Ts, rfl, ht⟩ := tiles_cons.mp h
      cases j with
      | zero =>
          obtain rfl : R ∩ Set.Iio x = S := by simpa using hj
          simp only [Set.mem_inter_iff, Set.mem_Iio, childIndex]
          split <;> simp_all
      | succ j =>
          rw [ih ht (by simpa using hj)]
          simp only [Set.mem_inter_iff, Set.mem_Ici, childIndex]
          split
          · rename_i hk
            simp [not_le.mpr hk]
          · rename_i hk
            simp [not_lt.mp hk]

theorem Tiles.mem_keys {R : Set K} {ks : List K} {Ss : List (Set K)} (h : Tiles R ks Ss) {x : K}
    (hx : x ∈ ks) : x ∈ R := by
  induction ks generalizing R Ss with
  | nil => simp at hx
  | cons y ks ih =>
      obtain ⟨hy, -, Ts, rfl, ht⟩ := tiles_cons.mp h
      rcases List.mem_cons.mp hx with rfl | hx
      · exact hy
      · exact (ih ht hx).1

/-- **A node is cut at a separator** into a part below and a part above it. -/
theorem tiles_cut {R : Set K} {A B : List K} {x : K} {Ps Qs : List (Set K)}
    (hlen : Ps.length = A.length + 1) :
    Tiles R (A ++ x :: B) (Ps ++ Qs) ↔ x ∈ R ∧ (R ∩ Set.Iio x).Nonempty
      ∧ Tiles (R ∩ Set.Iio x) A Ps ∧ Tiles (R ∩ Set.Ici x) B Qs := by
  induction A generalizing R Ps with
  | nil =>
      obtain ⟨S, rfl⟩ := List.length_eq_one_iff.mp hlen
      simp [Tiles]
      tauto
  | cons a A ih =>
      cases Ps with
      | nil => simp at hlen
      | cons S Ps =>
          have hPs : Ps.length = A.length + 1 := by simpa using hlen
          simp only [List.cons_append, Tiles, ih hPs]
          -- either side puts `a` below `x`; then the pieces are the same sets
          by_cases hax : a < x
          · have h₁ : R ∩ Set.Iio x ∩ Set.Iio a = R ∩ Set.Iio a := by
              ext k
              simp only [Set.mem_inter_iff, Set.mem_Iio]
              exact ⟨fun h => ⟨h.1.1, h.2⟩, fun h => ⟨⟨h.1, lt_trans h.2 hax⟩, h.2⟩⟩
            have h₂ : R ∩ Set.Ici a ∩ Set.Iio x = R ∩ Set.Iio x ∩ Set.Ici a :=
              Set.inter_right_comm _ _ _
            have h₃ : R ∩ Set.Ici a ∩ Set.Ici x = R ∩ Set.Ici x := by
              ext k
              simp only [Set.mem_inter_iff, Set.mem_Ici]
              exact ⟨fun h => ⟨h.1.1, h.2⟩, fun h => ⟨⟨h.1, le_trans (le_of_lt hax) h.2⟩, h.2⟩⟩
            rw [h₁, h₂, h₃]
            constructor
            · rintro ⟨ha, hS, hne, ⟨hx, -⟩, -, hA, hB⟩
              exact ⟨hx, ⟨a, ha, hax⟩, ⟨⟨ha, hax⟩, hS, hne, hA⟩, hB⟩
            · rintro ⟨hx, -, ⟨⟨ha, -⟩, hS, hne, hA⟩, hB⟩
              exact ⟨ha, hS, hne, ⟨hx, le_of_lt hax⟩, ⟨a, ⟨ha, hax⟩, le_refl a⟩, hA, hB⟩
          · constructor
            · rintro ⟨-, -, -, -, ⟨k, ⟨-, hak⟩, hkx⟩, -⟩
              exact absurd (lt_of_le_of_lt hak hkx) hax
            · rintro ⟨-, -, ⟨⟨-, ha⟩, -⟩, -⟩
              exact absurd ha hax

/-- **A hole is filled**: the piece `S` is replaced by its own pieces. -/
theorem Tiles.fill {R S : Set K} {A B ks : List K} {Ps Qs Ss : List (Set K)}
    (h : Tiles R (A ++ B) (Ps ++ S :: Qs)) (hlen : Ps.length = A.length) (hS : Tiles S ks Ss) :
    Tiles R (A ++ ks ++ B) (Ps ++ Ss ++ Qs) := by
  induction A generalizing R Ps with
  | nil =>
      obtain rfl := List.length_eq_zero_iff.mp hlen
      simp only [List.nil_append] at h ⊢
      cases B with
      | nil =>
          obtain ⟨rfl, rfl⟩ : S = R ∧ Qs = [] := by simpa using h
          simpa using hS
      | cons y B =>
          obtain ⟨hy, hne, Ts, heq, ht⟩ := tiles_cons.mp h
          obtain ⟨rfl, rfl⟩ := List.cons_eq_cons.mp heq
          exact (tiles_cut hS.length_eq).mpr ⟨hy, hne, hS, ht⟩
  | cons a A ih =>
      cases Ps with
      | nil => simp at hlen
      | cons T Ps =>
          obtain ⟨ha, hne, Ts, heq, ht⟩ := tiles_cons.mp h
          obtain ⟨rfl, rfl⟩ := List.cons_eq_cons.mp heq
          exact tiles_cons.mpr ⟨ha, hne, _, rfl, ih ht (by simpa using hlen)⟩

/-- **A part is taken out** and leaves a hole. -/
theorem Tiles.hole {R : Set K} {A B ks : List K} {Ps Qs Ss : List (Set K)}
    (h : Tiles R (A ++ ks ++ B) (Ps ++ Ss ++ Qs)) (hlen : Ps.length = A.length)
    (hSs : Ss.length = ks.length + 1) :
    ∃ S, Tiles R (A ++ B) (Ps ++ S :: Qs) ∧ Tiles S ks Ss := by
  induction A generalizing R Ps with
  | nil =>
      obtain rfl := List.length_eq_zero_iff.mp hlen
      simp only [List.nil_append] at h ⊢
      cases B with
      | nil =>
          have hQs := h.length_eq
          obtain rfl : Qs = [] := by
            rw [List.length_append, List.append_nil] at hQs
            exact List.length_eq_zero_iff.mp (by omega)
          exact ⟨R, by simp, by simpa using h⟩
      | cons y B =>
          obtain ⟨hy, hne, hl, hr⟩ := (tiles_cut hSs).mp h
          exact ⟨_, tiles_cons.mpr ⟨hy, hne, Qs, rfl, hr⟩, hl⟩
  | cons a A ih =>
      cases Ps with
      | nil => simp at hlen
      | cons T Ps =>
          obtain ⟨ha, hne, Ts, heq, ht⟩ := tiles_cons.mp h
          obtain ⟨rfl, rfl⟩ := List.cons_eq_cons.mp heq
          obtain ⟨S, hS, hks⟩ := ih ht (by simpa using hlen)
          exact ⟨S, tiles_cons.mpr ⟨ha, hne, _, rfl, hS⟩, hks⟩

/-- A node is cut in two behind its piece number `s`, with keys left on both sides. -/
theorem Tiles.halves {R : Set K} {ks : List K} {Ss : List (Set K)} (h : Tiles R ks Ss) {s : Nat}
    (h2 : 2 ≤ s) (hs : s + 2 ≤ Ss.length) :
    ∃ first mid second, ks[0]? = some first ∧ ks[s - 1]? = some mid ∧ ks[s]? = some second
      ∧ mid ∈ R ∧ first ∈ R ∩ Set.Iio mid ∧ second ∈ R ∩ Set.Ici mid
      ∧ Tiles (R ∩ Set.Iio mid) (ks.take (s - 1)) (Ss.take s)
      ∧ Tiles (R ∩ Set.Ici mid) (ks.drop s) (Ss.drop s) := by
  have hlen := h.length_eq
  have hcut : ks = ks.take (s - 1) ++ ks[s - 1] :: ks.drop s := by
    have hdrop := List.drop_eq_getElem_cons (l := ks) (i := s - 1) (by omega)
    rw [Nat.sub_add_cancel (by omega)] at hdrop
    rw [← hdrop, List.take_append_drop]
  have htiles : Tiles R (ks.take (s - 1) ++ ks[s - 1] :: ks.drop s) (Ss.take s ++ Ss.drop s) := by
    rwa [← hcut, List.take_append_drop]
  rw [tiles_cut (by
    rw [List.length_take, List.length_take]
    omega)] at htiles
  obtain ⟨hmid, -, hleft, hright⟩ := htiles
  refine ⟨ks[0], ks[s - 1], ks[s], List.getElem?_eq_getElem _, List.getElem?_eq_getElem _,
    List.getElem?_eq_getElem _, hmid, hleft.mem_keys ?_, hright.mem_keys ?_, hleft, hright⟩
  · exact List.mem_take_iff_getElem.mpr ⟨0, by omega, rfl⟩
  · exact List.mem_drop_iff_getElem.mpr ⟨0, by omega, rfl⟩

/-- A node with one separator. -/
theorem tiles_pair {R : Set K} {x : K} {S T : Set K} : Tiles R [x] [S, T] ↔
    x ∈ R ∧ (R ∩ Set.Iio x).Nonempty ∧ S = R ∩ Set.Iio x ∧ T = R ∩ Set.Ici x := by
  simp only [Tiles]
  tauto

/-! ## The keys of a leaf -/

theorem keyIndex_le (ks : List K) (k : K) : keyIndex ks k ≤ ks.length := by
  induction ks with
  | nil => exact Nat.le_refl 0
  | cons x ks ih =>
      simp only [keyIndex, List.length_cons]
      split <;> omega

theorem lt_of_mem_take_keyIndex {ks : List K} {k x : K} (h : x ∈ ks.take (keyIndex ks k)) :
    x < k := by
  induction ks with
  | nil => simp at h
  | cons y ks ih =>
      simp only [keyIndex] at h
      split at h
      · rename_i hy
        rw [List.take_succ_cons] at h
        rcases List.mem_cons.mp h with rfl | h
        · exact hy
        · exact ih h
      · simp at h

theorem le_of_mem_drop_keyIndex {ks : List K} (hs : ks.Pairwise (· < ·)) {k x : K}
    (h : x ∈ ks.drop (keyIndex ks k)) : k ≤ x := by
  induction ks with
  | nil => simp at h
  | cons y ks ih =>
      obtain ⟨hy, hs⟩ := List.pairwise_cons.mp hs
      simp only [keyIndex] at h
      split at h
      · rw [List.drop_succ_cons] at h
        exact ih hs h
      · rename_i hk
        rw [List.drop_zero] at h
        rcases List.mem_cons.mp h with rfl | h
        · exact not_lt.mp hk
        · exact le_trans (not_lt.mp hk) (le_of_lt (hy x h))

/-- The key is stored exactly when it stands at its index. -/
theorem getElem_keyIndex_iff {ks : List K} (hs : ks.Pairwise (· < ·)) (k : K) :
    ks[keyIndex ks k]? = some k ↔ k ∈ ks := by
  refine ⟨List.mem_of_getElem?, fun h => ?_⟩
  induction ks with
  | nil => simp at h
  | cons y ks ih =>
      obtain ⟨hy, hs⟩ := List.pairwise_cons.mp hs
      simp only [keyIndex]
      rcases List.mem_cons.mp h with rfl | h
      · simp
      · rw [if_pos (hy k h), List.getElem?_cons_succ]
        exact ih hs h

/-- A lookup finds what is paired with the key. -/
theorem lookup_eq_some_iff {ks : List K} (hs : ks.Pairwise (· < ·)) {vs : List α} {k : K} {v : α} :
    lookup ks vs k = some v ↔ (k, v) ∈ ks.zip vs := by
  induction ks generalizing vs with
  | nil => simp [lookup, keyIndex]
  | cons y ks ih =>
      obtain ⟨hy, hs⟩ := List.pairwise_cons.mp hs
      cases vs with
      | nil => simp [lookup]
      | cons w vs =>
          rw [List.zip_cons_cons, List.mem_cons, Prod.mk.injEq]
          by_cases hk : y < k
          · have hstep : lookup (y :: ks) (w :: vs) k = lookup ks vs k := by
              simp only [lookup, keyIndex, if_pos hk, List.getElem?_cons_succ]
            rw [hstep, ih hs]
            exact ⟨Or.inr, fun h => h.resolve_left (fun h => absurd h.1 (ne_of_gt hk))⟩
          · have hnot : (k, v) ∉ ks.zip vs := fun h =>
              hk (hy k (List.of_mem_zip h).1)
            simp only [lookup, keyIndex, if_neg hk, List.getElem?_cons_zero, Option.some.injEq,
              hnot, or_false]
            by_cases hyk : y = k
            · simp [hyk, eq_comm]
            · simp [hyk, Ne.symm hyk]

/-- Lookups that find the same pairs are equal. -/
theorem lookup_congr {ks ks' : List K} {vs vs' : List α} (hs : ks.Pairwise (· < ·))
    (hs' : ks'.Pairwise (· < ·)) {k : K}
    (h : ∀ v, (k, v) ∈ ks.zip vs ↔ (k, v) ∈ ks'.zip vs') : lookup ks vs k = lookup ks' vs' k := by
  refine Option.ext fun v => ?_
  rw [lookup_eq_some_iff hs, lookup_eq_some_iff hs', h v]

omit [LinearOrder K] in
theorem mem_zip_append {A B : List K} {V W : List α} (h : V.length = A.length) (e : K × α) :
    e ∈ (A ++ B).zip (V ++ W) ↔ e ∈ A.zip V ∨ e ∈ B.zip W := by
  rw [List.zip_append h.symm, List.mem_append]

/-- The keys of the second part do not matter for a key that is not among them. -/
theorem lookup_append_left {A B : List K} {V W : List α} (hs : (A ++ B).Pairwise (· < ·))
    (h : V.length = A.length) {k : K} (hk : k ∉ B) :
    lookup (A ++ B) (V ++ W) k = lookup A V k :=
  lookup_congr hs (List.pairwise_append.mp hs).1 fun v => by
    rw [mem_zip_append h]
    exact ⟨fun hv => hv.resolve_right fun hv => hk (List.of_mem_zip hv).1, Or.inl⟩

theorem lookup_append_right {A B : List K} {V W : List α} (hs : (A ++ B).Pairwise (· < ·))
    (h : V.length = A.length) {k : K} (hk : k ∉ A) :
    lookup (A ++ B) (V ++ W) k = lookup B W k :=
  lookup_congr hs (List.pairwise_append.mp hs).2.1 fun v => by
    rw [mem_zip_append h]
    exact ⟨fun hv => hv.resolve_left fun hv => hk (List.of_mem_zip hv).1, Or.inr⟩

/-- **One pair more or less**: what a leaf with the pair `key`, `v` says. -/
theorem lookup_insert {A B : List K} {V W : List α} {key : K} {v : α}
    (hs : (A ++ key :: B).Pairwise (· < ·)) (h : V.length = A.length) (k : K) :
    lookup (A ++ key :: B) (V ++ v :: W) k
      = if k = key then some v else lookup (A ++ B) (V ++ W) k := by
  obtain ⟨hA, hB, hAB⟩ := List.pairwise_append.mp hs
  obtain ⟨hkB, hB⟩ := List.pairwise_cons.mp hB
  split
  · rename_i hk
    subst hk
    rw [lookup_eq_some_iff hs, mem_zip_append h, List.zip_cons_cons]
    exact Or.inr List.mem_cons_self
  · rename_i hk
    have hs' : (A ++ B).Pairwise (· < ·) :=
      List.pairwise_append.mpr ⟨hA, hB, fun x hx y hy => hAB x hx y (List.mem_cons_of_mem _ hy)⟩
    refine lookup_congr hs hs' fun u => ?_
    rw [mem_zip_append h, mem_zip_append h, List.zip_cons_cons, List.mem_cons, Prod.mk.injEq]
    tauto

end Separators
