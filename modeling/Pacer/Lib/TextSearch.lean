import Mathlib.Data.List.Infix

set_option autoImplicit false

/-! # Searching a text

`search f s` is the result of `f` at the first place of `s` where it has one, as a regular
expression is searched for. When `f` needs the text `key` in front of it, a search passes over a
part of the text in which no `key` starts (`search_append`). Whether one starts in `x` can
depend on what follows `x`, unless `x` and its ends differ from `key` within their own length:
this is `Skips key x`, which can be decided for a fixed `x` and is kept by appending.
-/

namespace TextSearch

variable {α β : Type*}

/-- The result of `f` at the first suffix that has one. -/
def search (f : List α → Option β) : List α → Option β
  | [] => f []
  | c :: s =>
      match f (c :: s) with
      | some r => some r
      | none => search f s

theorem search_of_some {f : List α → Option β} {s : List α} {r : β} (h : f s = some r) :
    search f s = some r := by
  cases s with
  | nil => exact h
  | cons c s => rw [search, h]

theorem search_cons_of_none {f : List α → Option β} {c : α} {s : List α}
    (h : f (c :: s) = none) : search f (c :: s) = search f s := by
  rw [search, h]

/-- No place of `x` can be the start of `key`, whatever comes after `x`. -/
def Skips (key : List α) : List α → Prop
  | [] => True
  | c :: x => ¬ key <+: c :: x ∧ ¬ c :: x <+: key ∧ Skips key x

instance decidableSkips [DecidableEq α] (key : List α) : (x : List α) → Decidable (Skips key x)
  | [] => inferInstanceAs (Decidable True)
  | c :: x =>
      have := decidableSkips key x
      inferInstanceAs (Decidable (¬ key <+: c :: x ∧ ¬ c :: x <+: key ∧ Skips key x))

/-- A text that differs from `key` within its length does so with any end appended. -/
theorem not_prefix_append {key x : List α} (hkey : ¬ key <+: x) (hpre : ¬ x <+: key)
    (y : List α) : ¬ key <+: x ++ y := by
  intro h
  rcases List.prefix_or_prefix_of_prefix h (List.prefix_append x y) with h' | h'
  · exact hkey h'
  · exact hpre h'

/-- A text without the first character of `key`. -/
theorem Skips.of_head {k : α} {key x : List α} (hk : key.head? = some k) (h : ∀ c ∈ x, c ≠ k) :
    Skips key x := by
  induction x with
  | nil => trivial
  | cons c x ih =>
      obtain ⟨key, rfl⟩ := List.head?_eq_some_iff.mp hk
      have hc : c ≠ k := h c List.mem_cons_self
      refine ⟨?_, ?_, ih fun c' hc' => h c' (List.mem_cons_of_mem c hc')⟩
      · rintro ⟨rest, hrest⟩
        exact hc (List.cons.inj hrest).1.symm
      · rintro ⟨rest, hrest⟩
        exact hc (List.cons.inj hrest).1

theorem Skips.append {key x y : List α} (hx : Skips key x) (hy : Skips key y) :
    Skips key (x ++ y) := by
  induction x with
  | nil => exact hy
  | cons c x ih =>
      obtain ⟨hkey, hpre, hrest⟩ := hx
      refine ⟨not_prefix_append hkey hpre y, fun h => ?_, ih hrest⟩
      exact hpre ((List.prefix_append (c :: x) y).trans h)

theorem Skips.flatMap {γ : Type*} {key : List α} {l : List γ} {text : γ → List α}
    (h : ∀ g ∈ l, Skips key (text g)) : Skips key (l.flatMap text) := by
  induction l with
  | nil => trivial
  | cons g l ih =>
      rw [List.flatMap_cons]
      exact (h g List.mem_cons_self).append (ih fun g' hg' => h g' (List.mem_cons_of_mem g hg'))

/-- **A search passes over what cannot start a match.** -/
theorem search_append {f : List α → Option β} {key : List α}
    (hf : ∀ s, ¬ key <+: s → f s = none) {x : List α} (hx : Skips key x) (y : List α) :
    search f (x ++ y) = search f y := by
  induction x with
  | nil => rfl
  | cons c x ih =>
      obtain ⟨hkey, hpre, hrest⟩ := hx
      have hnone : f (c :: (x ++ y)) = none := hf _ (not_prefix_append hkey hpre y)
      exact (search_cons_of_none hnone).trans (ih hrest)

end TextSearch
