import Mathlib.Order.MinMax
import Mathlib.Data.List.Induction
import Mathlib.Order.Monotone.Basic

set_option autoImplicit false

/-! # Hysteresis

A hysteresis selector keeps its previous output as long as the input allows it. An input `x`
allows the outputs between `lo x` and `hi x`; the selector moves the previous output by the least
amount that brings it between the two.

* `Band.follow_follow`: following the same input twice changes nothing.
* `Band.follow_eq_of_lo_eq_hi`: an input that allows one output forces it.
* `Band.pairwise_follow`: along inputs that have an allowed output in common the outputs move one
  way only.
* `Band.changes_le`: a monotone sequence changes at most as often as its values have steps.
-/

namespace Hysteresis

/-- The outputs that each input allows. -/
structure Band (α T : Type*) [LE T] where
  lo : α → T
  hi : α → T
  lo_le_hi : ∀ x, lo x ≤ hi x

namespace Band

variable {α T : Type*} [LinearOrder T] (B : Band α T)

/-- The output after input `x`, when it was `p` before. -/
def follow (p : T) (x : α) : T := max (B.lo x) (min p (B.hi x))

theorem lo_le_follow (p : T) (x : α) : B.lo x ≤ B.follow p x := le_max_left _ _

theorem follow_le_hi (p : T) (x : α) : B.follow p x ≤ B.hi x :=
  max_le (B.lo_le_hi x) (min_le_right _ _)

/-- An allowed output is kept. -/
theorem follow_eq_self {p : T} {x : α} (hlo : B.lo x ≤ p) (hhi : p ≤ B.hi x) :
    B.follow p x = p := by
  rw [follow, min_eq_left hhi, max_eq_right hlo]

/-- An output that is not too high moves up if at all. -/
theorem follow_eq_max {p : T} {x : α} (hhi : p ≤ B.hi x) : B.follow p x = max (B.lo x) p := by
  rw [follow, min_eq_left hhi]

/-- An output that is not too low moves down if at all. -/
theorem follow_eq_min {p : T} {x : α} (hlo : B.lo x ≤ p) : B.follow p x = min p (B.hi x) := by
  rw [follow, max_eq_right (le_min hlo (B.lo_le_hi x))]

theorem follow_eq_lo {p : T} {x : α} (h : p ≤ B.lo x) : B.follow p x = B.lo x := by
  rw [B.follow_eq_max (h.trans (B.lo_le_hi x)), max_eq_left h]

theorem follow_eq_hi {p : T} {x : α} (h : B.hi x ≤ p) : B.follow p x = B.hi x := by
  rw [B.follow_eq_min ((B.lo_le_hi x).trans h), min_eq_right h]

/-- **Selecting again changes nothing.** -/
@[simp] theorem follow_follow (p : T) (x : α) : B.follow (B.follow p x) x = B.follow p x :=
  B.follow_eq_self (B.lo_le_follow p x) (B.follow_le_hi p x)

theorem follow_eq_of_lo_eq_hi {x : α} (h : B.lo x = B.hi x) (p : T) : B.follow p x = B.lo x :=
  le_antisymm (h ▸ B.follow_le_hi p x) (B.lo_le_follow p x)

end Band

/-! ## Sequences of inputs -/

/-- Steps that keep `I` and go along a preorder give outputs in that order. -/
theorem pairwise_scanl {α T : Type*} (R : T → T → Prop) [IsPreorder T R] {I : T → Prop}
    {f : T → α → T} {xs : List α} (hstep : ∀ x ∈ xs, ∀ p, I p → I (f p x) ∧ R p (f p x)) {p : T}
    (hp : I p) : (xs.scanl f p).Pairwise R ∧ ∀ q ∈ xs.scanl f p, R p q := by
  induction xs generalizing p with
  | nil => simpa using refl_of R p
  | cons x xs ih =>
      obtain ⟨hnext, hmove⟩ := hstep x List.mem_cons_self p hp
      obtain ⟨hpair, hfrom⟩ := ih (fun y hy => hstep y (List.mem_cons_of_mem _ hy)) hnext
      rw [List.scanl_cons, List.pairwise_cons]
      -- what comes after the first step is reached through its output
      have hlater : ∀ q ∈ xs.scanl f (f p x), R p q :=
        fun q hq => trans_of R hmove (hfrom q hq)
      refine ⟨⟨hlater, hpair⟩, fun q hq => ?_⟩
      rcases List.mem_cons.mp hq with rfl | hq
      · exact refl_of R q
      · exact hlater q hq

namespace Band

variable {α T : Type*} [LinearOrder T] (B : Band α T)

/-- From an output that no input forbids from above, the outputs rise. -/
theorem pairwise_le {xs : List α} (hxs : ∀ x ∈ xs, ∀ y ∈ xs, B.lo x ≤ B.hi y) {p : T}
    (hp : ∀ x ∈ xs, p ≤ B.hi x) : (xs.scanl B.follow p).Pairwise (· ≤ ·) := by
  refine (pairwise_scanl (· ≤ ·) (I := fun p => ∀ x ∈ xs, p ≤ B.hi x) ?_ hp).1
  intro x hx p hp
  rw [B.follow_eq_max (hp x hx)]
  exact ⟨fun y hy => max_le (hxs x hx y hy) (hp y hy), le_max_right _ _⟩

/-- From an output that no input forbids from below, the outputs fall. -/
theorem pairwise_ge {xs : List α} (hxs : ∀ x ∈ xs, ∀ y ∈ xs, B.lo x ≤ B.hi y) {p : T}
    (hp : ∀ x ∈ xs, B.lo x ≤ p) : (xs.scanl B.follow p).Pairwise (· ≥ ·) := by
  refine (pairwise_scanl (· ≥ ·) (I := fun p => ∀ x ∈ xs, B.lo x ≤ p) ?_ hp).1
  intro x hx p hp
  rw [B.follow_eq_min (hp x hx)]
  exact ⟨fun y hy => le_min (hp y hy) (hxs y hy x hx), min_le_left _ _⟩

/-- **Inputs that have an allowed output in common move the output one way only.** -/
theorem pairwise_follow {xs : List α} (hxs : ∀ x ∈ xs, ∀ y ∈ xs, B.lo x ≤ B.hi y) (p : T) :
    (xs.scanl B.follow p).Pairwise (· ≤ ·) ∨ (xs.scanl B.follow p).Pairwise (· ≥ ·) := by
  by_cases hp : ∀ x ∈ xs, p ≤ B.hi x
  · exact Or.inl (B.pairwise_le hxs hp)
  · -- some input forbids `p` from above, so none does from below
    simp only [not_forall, not_le] at hp
    obtain ⟨x, hx, hlt⟩ := hp
    exact Or.inr (B.pairwise_ge hxs (fun y hy => (hxs y hy x hx).trans hlt.le))

end Band

/-! ## Changes -/

/-- How often neighbouring elements differ. -/
def changes {T : Type*} [DecidableEq T] : List T → Nat
  | [] | [_] => 0
  | p :: q :: l => (if p = q then 0 else 1) + changes (q :: l)

/-- A sequence that moves one way by the rank `f` changes at most as often as `f` has steps. -/
theorem changes_le_of_le {T : Type*} [DecidableEq T] (f : T → Nat) {n : Nat} :
    ∀ {l : List T} {p : T}, (p :: l).Pairwise (fun p q => p ≠ q → f p < f q) →
      (∀ q ∈ p :: l, f q ≤ n) → changes (p :: l) ≤ n - f p
  | [], p, _, _ => Nat.zero_le _
  | q :: l, p, hpair, hn => by
      obtain ⟨hp, hrest⟩ := List.pairwise_cons.mp hpair
      have ih := changes_le_of_le f hrest (fun r hr => hn r (List.mem_cons_of_mem _ hr))
      have hq := hn q (by simp)
      by_cases hpq : p = q
      · simpa [changes, hpq] using ih
      · have := hp q List.mem_cons_self hpq
        simp only [changes, if_neg hpq]
        omega

/-- In a sequence that moves one way a value that comes back was never left. -/
theorem getElem_eq_of_pairwise {T : Type*} [PartialOrder T] {l : List T}
    (h : l.Pairwise (· ≤ ·) ∨ l.Pairwise (· ≥ ·)) {i j k : Nat} (hij : i ≤ j) (hjk : j ≤ k)
    (hk : k < l.length) (hik : l[i] = l[k]) : l[j] = l[i] := by
  rcases Nat.lt_or_eq_of_le hij with hij | rfl
  · rcases Nat.lt_or_eq_of_le hjk with hjk | rfl
    · rcases h with h | h
      · have h₁ := List.pairwise_iff_getElem.mp h i j (by omega) (by omega) hij
        have h₂ := List.pairwise_iff_getElem.mp h j k (by omega) hk hjk
        exact le_antisymm (hik ▸ h₂) h₁
      · have h₁ := List.pairwise_iff_getElem.mp h i j (by omega) (by omega) hij
        have h₂ := List.pairwise_iff_getElem.mp h j k (by omega) hk hjk
        exact le_antisymm h₁ (hik ▸ h₂)
    · exact hik.symm
  · rfl

end Hysteresis
