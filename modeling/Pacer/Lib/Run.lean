import Mathlib.Order.Basic
import Mathlib.Data.List.Induction

set_option autoImplicit false

/-! # Runs of a guarded step function

A machine is a guarded step function `step : σ → α → Option σ`: `step s a = some s'` when
the action `a` is enabled in `s` and leads to `s'`. A run is recorded as the list of its
transitions, each with the state before and the state after, so that a statement about a
run can speak about the order of its steps and about the state in which each was taken.

* `Run.invariant`: what holds initially and is preserved by every step holds at the end;
  `Run.invariant_of` asks for preservation only by the steps that meet a condition.
* `Run.pairwise_visited`: a quantity that no step lowers never falls.
* `Run.split`: a run that passes through a transition, cut at that transition.
* `Run.exists_visited`: a counter that grows by at most one per step takes every value
  between its first and its last.
* `Run.eq_add_countP`: a counter that the transitions of a kind raise by one counts them.
* `Run.simulates`: a projection that maps every step to a step or to nothing maps runs to
  runs.
* `replay`: executes a list of actions and records the run.
-/

namespace Machine

/-- One transition of a run. -/
structure Trans (σ α : Type*) where
  pre : σ
  act : α
  post : σ

section

variable {σ α : Type*} {step : σ → α → Option σ}

/-- `Run step s tr s'`: the transitions `tr`, in order, lead from `s` to `s'`. -/
inductive Run (step : σ → α → Option σ) (s : σ) : List (Trans σ α) → σ → Prop
  | nil : Run step s [] s
  | snoc {s' s'' : σ} {a : α} {tr : List (Trans σ α)} :
      Run step s tr s' → step s' a = some s'' → Run step s (tr ++ [⟨s', a, s''⟩]) s''

/-- The states a run passes through, the first one included. -/
def visited (s : σ) (tr : List (Trans σ α)) : List σ := s :: tr.map Trans.post

theorem Run.single {s s' : σ} {a : α} (h : step s a = some s') :
    Run step s [⟨s, a, s'⟩] s' :=
  Run.snoc Run.nil h

theorem Run.append {s s' s'' : σ} {tr tr' : List (Trans σ α)} (h : Run step s tr s')
    (h' : Run step s' tr' s'') : Run step s (tr ++ tr') s'' := by
  induction h' with
  | nil => rw [List.append_nil]; exact h
  | snoc _ hs ih => rw [← List.append_assoc]; exact Run.snoc ih hs

theorem Run.cons {s s' s'' : σ} {a : α} {tr : List (Trans σ α)} (h : step s a = some s')
    (h' : Run step s' tr s'') : Run step s (⟨s, a, s'⟩ :: tr) s'' :=
  Run.append (Run.single h) h'

/-- The last transition of a nonempty run. -/
theorem Run.snoc_inv {s s'' : σ} {tr : List (Trans σ α)} {x : Trans σ α}
    (h : Run step s (tr ++ [x]) s'') :
    Run step s tr x.pre ∧ step x.pre x.act = some x.post ∧ x.post = s'' := by
  generalize hl : tr ++ [x] = l at h
  cases h with
  | nil => simp at hl
  | snoc h₁ h₂ =>
      obtain ⟨rfl, hx⟩ := List.append_inj' hl rfl
      obtain rfl := List.singleton_inj.mp hx
      exact ⟨h₁, h₂, rfl⟩

/-- A run along `tr ++ tr'` passes through a state between the two. -/
theorem Run.append_inv {s s'' : σ} {tr tr' : List (Trans σ α)}
    (h : Run step s (tr ++ tr') s'') : ∃ s', Run step s tr s' ∧ Run step s' tr' s'' := by
  induction tr' using List.reverseRecOn generalizing s'' with
  | nil => exact ⟨s'', by simpa using h, Run.nil⟩
  | append_singleton l x ih =>
      rw [← List.append_assoc] at h
      obtain ⟨h₁, h₂, rfl⟩ := Run.snoc_inv h
      obtain ⟨s', h₃, h₄⟩ := ih h₁
      exact ⟨s', h₃, Run.snoc h₄ h₂⟩

/-- A run cut at one of its transitions. -/
theorem Run.split {s s'' : σ} {tr tr' : List (Trans σ α)} {x : Trans σ α}
    (h : Run step s (tr ++ x :: tr') s'') :
    Run step s tr x.pre ∧ step x.pre x.act = some x.post ∧ Run step x.post tr' s'' := by
  rw [show tr ++ x :: tr' = tr ++ [x] ++ tr' by simp] at h
  obtain ⟨s', h₁, h₂⟩ := Run.append_inv h
  obtain ⟨h₃, h₄, rfl⟩ := Run.snoc_inv h₁
  exact ⟨h₃, h₄, h₂⟩

theorem Run.cons_inv {s s'' : σ} {tr : List (Trans σ α)} {x : Trans σ α}
    (h : Run step s (x :: tr) s'') :
    step x.pre x.act = some x.post ∧ Run step x.post tr s'' :=
  (Run.split (show Run step s ([] ++ x :: tr) s'' from h)).2

theorem Run.of_mem {s s' : σ} {tr : List (Trans σ α)} {x : Trans σ α}
    (h : Run step s tr s') (hx : x ∈ tr) :
    ∃ tr', (∃ l, tr = tr' ++ x :: l) ∧ Run step s tr' x.pre
      ∧ step x.pre x.act = some x.post := by
  obtain ⟨tr', l, rfl⟩ := List.append_of_mem hx
  obtain ⟨h₁, h₂, -⟩ := Run.split h
  exact ⟨tr', ⟨l, rfl⟩, h₁, h₂⟩

/-! ## Invariants -/

/-- **The invariant rule with a condition on the steps**: a predicate that every step
meeting `C` preserves holds at the end of a run all of whose steps meet `C`. -/
theorem Run.invariant_of {I : σ → Prop} {C : Trans σ α → Prop} {s s' : σ}
    {tr : List (Trans σ α)} (h : Run step s tr s') (hC : ∀ x ∈ tr, C x) (h₀ : I s)
    (hstep : ∀ s a s', I s → step s a = some s' → C ⟨s, a, s'⟩ → I s') : I s' := by
  induction h with
  | nil => exact h₀
  | snoc _ hs ih =>
      have hpre := ih (fun x hx => hC x (List.mem_append_left _ hx))
      exact hstep _ _ _ hpre hs (hC _ (by simp))

/-- **The invariant rule.** -/
theorem Run.invariant {I : σ → Prop} {s s' : σ} {tr : List (Trans σ α)}
    (h : Run step s tr s') (h₀ : I s)
    (hstep : ∀ s a s', I s → step s a = some s' → I s') : I s' :=
  h.invariant_of (C := fun _ => True) (fun _ _ => trivial) h₀
    (fun s a s' hI hs _ => hstep s a s' hI hs)

/-- A quantity that no step of an invariant state lowers never falls along a run. -/
theorem Run.pairwise_visited {β : Type*} [Preorder β] (f : σ → β) {I : σ → Prop} {s s' : σ}
    {tr : List (Trans σ α)} (h : Run step s tr s') (h₀ : I s)
    (hstep : ∀ s a s', I s → step s a = some s' → I s' ∧ f s ≤ f s') :
    (visited s tr).Pairwise (fun r r' => f r ≤ f r') ∧ ∀ r ∈ visited s tr, f r ≤ f s' := by
  induction h with
  | nil => simp [visited]
  | snoc hr hs ih =>
      rename_i r r' a tr
      obtain ⟨hpair, hle⟩ := ih
      have hI := hr.invariant h₀ (fun s a s' hI hs => (hstep s a s' hI hs).1)
      have hlast : ∀ q ∈ visited s tr, f q ≤ f r' :=
        fun q hq => le_trans (hle q hq) (hstep _ _ _ hI hs).2
      have hvis : visited s (tr ++ [⟨r, a, r'⟩]) = visited s tr ++ [r'] := by
        simp [visited]
      rw [hvis, List.pairwise_append]
      refine ⟨⟨hpair, List.pairwise_singleton _ _, fun q hq q' hq' => ?_⟩, fun q hq => ?_⟩
      · rw [List.mem_singleton.mp hq']
        exact hlast q hq
      · rcases List.mem_append.mp hq with hq | hq
        · exact hlast q hq
        · rw [List.mem_singleton.mp hq]

/-- **Every value in between is visited.** A counter that grows by at most one per step
takes each value from its first to its last. -/
theorem Run.exists_visited (f : σ → Nat) {s s' : σ} {tr : List (Trans σ α)}
    (h : Run step s tr s') (hstep : ∀ s a s', step s a = some s' → f s' ≤ f s + 1)
    {v : Nat} (hlo : f s ≤ v) (hhi : v ≤ f s') : ∃ r ∈ visited s tr, f r = v := by
  induction h with
  | nil => exact ⟨s, by simp [visited], Nat.le_antisymm hlo hhi⟩
  | snoc hr hs ih =>
      rename_i r r' a tr
      by_cases hv : v ≤ f r
      · obtain ⟨q, hq, hfq⟩ := ih hv
        refine ⟨q, ?_, hfq⟩
        simp only [visited, List.map_append, List.mem_cons, List.mem_append] at hq ⊢
        tauto
      · have := hstep _ _ _ hs
        exact ⟨r', by simp [visited], by omega⟩

/-- **Counting transitions.** A counter that the transitions of a kind, and no others, raise by
one has grown by their number. -/
theorem Run.eq_add_countP (f : σ → Nat) (p : Trans σ α → Bool) {s s' : σ}
    {tr : List (Trans σ α)} (h : Run step s tr s')
    (hstep : ∀ s a s', step s a = some s' → f s' = f s + if p ⟨s, a, s'⟩ then 1 else 0) :
    f s' = f s + tr.countP p := by
  induction h with
  | nil => rw [List.countP_nil, Nat.add_zero]
  | snoc _ hs ih =>
      rw [List.countP_append, List.countP_singleton, hstep _ _ _ hs, ih, Nat.add_assoc]

/-- The transition of a kind that has `k` of its kind before it. -/
theorem exists_split_of_lt_countP (p : Trans σ α → Bool) {k : Nat} {tr : List (Trans σ α)}
    (h : k < tr.countP p) :
    ∃ tr₁ x tr₂, tr = tr₁ ++ x :: tr₂ ∧ p x = true ∧ tr₁.countP p = k := by
  induction tr generalizing k with
  | nil => cases h
  | cons a l ih =>
      by_cases ha : p a = true
      · rw [List.countP_cons_of_pos ha] at h
        cases k with
        | zero => exact ⟨[], a, l, rfl, ha, rfl⟩
        | succ k =>
            obtain ⟨tr₁, x, tr₂, rfl, hx, hk⟩ := ih (Nat.lt_of_succ_lt_succ h)
            exact ⟨a :: tr₁, x, tr₂, rfl, hx, by rw [List.countP_cons_of_pos ha, hk]⟩
      · rw [List.countP_cons_of_neg ha] at h
        obtain ⟨tr₁, x, tr₂, rfl, hx, hk⟩ := ih h
        exact ⟨a :: tr₁, x, tr₂, rfl, hx, by rw [List.countP_cons_of_neg ha, hk]⟩

/-- Every visited state is the end of an initial part of the run. -/
theorem Run.prefix_of_visited {s s' r : σ} {tr : List (Trans σ α)} (h : Run step s tr s')
    (hr : r ∈ visited s tr) : ∃ tr₁ tr₂, tr = tr₁ ++ tr₂ ∧ Run step s tr₁ r := by
  induction h with
  | nil =>
      have : r = s := by simpa [visited] using hr
      exact ⟨[], [], rfl, this ▸ Run.nil⟩
  | snoc h₁ h₂ ih =>
      rename_i q q' a l
      by_cases hq : r ∈ visited s l
      · obtain ⟨tr₁, tr₂, rfl, h₃⟩ := ih hq
        exact ⟨tr₁, tr₂ ++ [⟨q, a, q'⟩], by simp, h₃⟩
      · have : r = q' := by
          simp only [visited, List.map_append, List.mem_cons, List.mem_append] at hq hr
          simp at hq hr
          tauto
        subst this
        exact ⟨_, [], by simp, Run.snoc h₁ h₂⟩

/-! ## Simulation -/

/-- A projection that maps every step between states of the invariant `I` to a step of the
other machine or to no step at all maps runs to runs. -/
theorem Run.simulates {τ β : Type*} {step' : τ → β → Option τ} {I : σ → Prop} (f : σ → τ)
    (hI : ∀ s a s', I s → step s a = some s' → I s')
    (hsim : ∀ s a s', I s → step s a = some s' →
      f s' = f s ∨ ∃ b, step' (f s) b = some (f s'))
    {s s' : σ} {tr : List (Trans σ α)} (h : Run step s tr s') (h₀ : I s) :
    ∃ tr', Run step' (f s) tr' (f s') := by
  induction h with
  | nil => exact ⟨[], Run.nil⟩
  | snoc hr hs ih =>
      obtain ⟨tr', h'⟩ := ih
      have hIr := hr.invariant h₀ hI
      rcases hsim _ _ _ hIr hs with heq | ⟨b, hb⟩
      · exact ⟨tr', heq ▸ h'⟩
      · exact ⟨_, Run.snoc h' hb⟩

/-! ## Replay -/

/-- Execute a list of actions and record the run; `none` if one of them is not enabled. -/
def replay (step : σ → α → Option σ) : σ → List α → Option (List (Trans σ α) × σ)
  | s, [] => some ([], s)
  | s, a :: as =>
      match step s a with
      | none => none
      | some s' =>
          match replay step s' as with
          | none => none
          | some (tr, s'') => some (⟨s, a, s'⟩ :: tr, s'')

theorem run_of_replay : ∀ {as : List α} {s s' : σ} {tr : List (Trans σ α)},
    replay step s as = some (tr, s') → Run step s tr s'
  | [], s, s', tr, h => by
      simp only [replay, Option.some.injEq, Prod.mk.injEq] at h
      obtain ⟨rfl, rfl⟩ := h
      exact Run.nil
  | a :: as, s, s', tr, h => by
      simp only [replay] at h
      split at h
      · cases h
      · rename_i s₁ hs
        split at h
        · cases h
        · rename_i tr₁ s₂ hr
          simp only [Option.some.injEq, Prod.mk.injEq] at h
          obtain ⟨rfl, rfl⟩ := h
          exact Run.cons hs (run_of_replay hr)

/-- A replay whose recorded run passes the test `p` gives a run that passes it. -/
theorem exists_run_of_replay (step : σ → α → Option σ) (s : σ) (as : List α)
    (p : List (Trans σ α) → σ → Bool) (h : (replay step s as).any (fun r => p r.1 r.2) = true) :
    ∃ tr s', Run step s tr s' ∧ p tr s' = true := by
  cases hr : replay step s as with
  | none => rw [hr] at h; cases h
  | some r =>
      rw [hr] at h
      exact ⟨r.1, r.2, run_of_replay hr, h⟩

end

end Machine
