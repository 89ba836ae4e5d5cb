import Mathlib.Data.Set.Basic
import Mathlib.Logic.Function.Basic
import Mathlib.Data.List.Basic

set_option autoImplicit false

/-! # Linearizability with hindsight

An object has a state `M` and operations that change it and return a result. The histories of the
atomic object are given by `Object.Linear`: between its call and its return an operation takes
effect at one moment, and returns the result of that moment. An implementation is linearizable
when all its histories are such.

An operation that leaves the object as it is may have taken effect at a moment that the thread
recognises only later. `Object.Observed` is the object in which every pending operation keeps the
set of the results that it could have returned, without an effect, at some moment since its call;
it may settle for any of them at any later time. `Observed.linear` shows that this object has no
more histories than the atomic one. So an implementation is shown linearizable by a forward
simulation into the observed object, and no moment in the past has to be named.
-/

variable {T M Op R : Type*}

/-- An object: its initial state, and what an operation makes of a state and returns. -/
structure Object (M Op R : Type*) where
  init : M
  apply : M → Op → M × R

namespace Object

inductive Event (T Op R : Type*) where
  | call (t : T) (op : Op)
  | ret (t : T) (res : R)

/-- Where a thread stands with its operation. -/
inductive Phase (Op R : Type*) where
  | idle
  | called (op : Op)
  | done (res : R)

/-- **The histories of the atomic object**, with the state and the phases they lead to. -/
inductive Linear [DecidableEq T] (O : Object M Op R) :
    List (Event T Op R) → M → (T → Phase Op R) → Prop
  | init : Linear O [] O.init (fun _ => .idle)
  | call {H : List (Event T Op R)} {m : M} {ph : T → Phase Op R} (t : T) (op : Op) :
      Linear O H m ph → ph t = .idle →
      Linear O (H ++ [.call t op]) m (Function.update ph t (.called op))
  | effect {H : List (Event T Op R)} {m : M} {ph : T → Phase Op R} (t : T) {op : Op} :
      Linear O H m ph → ph t = .called op →
      Linear O H (O.apply m op).1 (Function.update ph t (.done (O.apply m op).2))
  | ret {H : List (Event T Op R)} {m : M} {ph : T → Phase Op R} (t : T) {res : R} :
      Linear O H m ph → ph t = .done res →
      Linear O (H ++ [.ret t res]) m (Function.update ph t .idle)

/-- The result of an operation that has no effect in the state `m`, if it has none. -/
def quiet (O : Object M Op R) (m : M) (op : Op) : Set R := {r | O.apply m op = (m, r)}

/-- Where a thread stands, with the results it may settle for. -/
inductive Watch (Op R : Type*) where
  | idle
  | called (op : Op) (seen : Set R)
  | done (res : R)

/-- A pending operation sees the state `m`. -/
def Watch.see (O : Object M Op R) (m : M) : Watch Op R → Watch Op R
  | .called op seen => .called op (seen ∪ O.quiet m op)
  | w => w

/-- The object whose pending operations watch it. -/
inductive Observed [DecidableEq T] (O : Object M Op R) :
    List (Event T Op R) → M → (T → Watch Op R) → Prop
  | init : Observed O [] O.init (fun _ => .idle)
  | call {H : List (Event T Op R)} {m : M} {w : T → Watch Op R} (t : T) (op : Op) :
      Observed O H m w → w t = .idle →
      Observed O (H ++ [.call t op]) m (Function.update w t (.called op (O.quiet m op)))
  | effect {H : List (Event T Op R)} {m : M} {w : T → Watch Op R} (t : T) {op : Op}
      {seen : Set R} :
      Observed O H m w → w t = .called op seen →
      Observed O H (O.apply m op).1
        (Function.update (fun u => (w u).see O (O.apply m op).1) t (.done (O.apply m op).2))
  | settle {H : List (Event T Op R)} {m : M} {w : T → Watch Op R} (t : T) {op : Op}
      {seen : Set R} {res : R} :
      Observed O H m w → w t = .called op seen → res ∈ seen →
      Observed O H m (Function.update w t (.done res))
  | ret {H : List (Event T Op R)} {m : M} {w : T → Watch Op R} (t : T) {res : R} :
      Observed O H m w → w t = .done res →
      Observed O (H ++ [.ret t res]) m (Function.update w t .idle)

variable [DecidableEq T] {O : Object M Op R}

/-- A pending operation has seen the present state. -/
theorem Observed.quiet_subset {H : List (Event T Op R)} {m : M} {w : T → Watch Op R}
    (h : O.Observed H m w) {t : T} {op : Op} {seen : Set R} (ht : w t = .called op seen) :
    O.quiet m op ⊆ seen := by
  induction h with
  | init => cases ht
  | call u _ _ _ ih | settle u _ _ _ ih | ret u _ _ ih =>
      by_cases htu : t = u
      · subst htu
        rw [Function.update_self] at ht
        cases ht <;> exact subset_rfl
      · rw [Function.update_of_ne htu] at ht
        exact ih ht
  | @effect _ _ w u _ _ _ _ ih =>
      by_cases htu : t = u
      · subst htu
        rw [Function.update_self] at ht
        cases ht
      · rw [Function.update_of_ne htu] at ht
        cases hw : w t with
        | idle => rw [hw] at ht; cases ht
        | done r => rw [hw] at ht; cases ht
        | called op' S =>
            rw [hw] at ht
            cases ht
            exact Set.subset_union_right

/-- Finitely many threads have called. -/
theorem Observed.finite {H : List (Event T Op R)} {m : M} {w : T → Watch Op R}
    (h : O.Observed H m w) : ∃ ts : List T, ∀ t, w t ≠ .idle → t ∈ ts := by
  induction h with
  | init => exact ⟨[], fun t ht => absurd rfl ht⟩
  | call u _ _ _ ih | settle u _ _ _ ih | ret u _ _ ih =>
      obtain ⟨ts, hts⟩ := ih
      refine ⟨u :: ts, fun t ht => ?_⟩
      by_cases htu : t = u
      · simp [htu]
      · rw [Function.update_of_ne htu] at ht
        exact List.mem_cons_of_mem _ (hts t ht)
  | effect u _ _ ih =>
      obtain ⟨ts, hts⟩ := ih
      refine ⟨u :: ts, fun t ht => ?_⟩
      by_cases htu : t = u
      · simp [htu]
      · rw [Function.update_of_ne htu] at ht
        refine List.mem_cons_of_mem _ (hts t fun hw => ht ?_)
        simp [hw, Watch.see]

/-- The phases that the atomic object may be in: a pending operation that has seen a result may
have taken effect with it. -/
inductive Watch.Fits : Watch Op R → Phase Op R → Prop
  | idle : Fits .idle .idle
  | called {op : Op} {seen : Set R} : Fits (.called op seen) (.called op)
  | seen {op : Op} {seen : Set R} {res : R} : res ∈ seen → Fits (.called op seen) (.done res)
  | done {res : R} : Fits (.done res) (.done res)

/-- Pending operations without an effect in the present state take place one after the other. -/
theorem Linear.sweep {H : List (Event T Op R)} {m : M} {ph ph' : T → Phase Op R} (ts : List T)
    (h : O.Linear H m ph)
    (hts : ∀ t, ph t = ph' t
      ∨ (t ∈ ts ∧ ∃ op r, ph t = .called op ∧ ph' t = .done r ∧ r ∈ O.quiet m op)) :
    O.Linear H m ph' := by
  induction ts generalizing ph with
  | nil =>
      have heq : ph = ph' := funext fun t => (hts t).resolve_right (by simp)
      exact heq ▸ h
  | cons u ts ih =>
      rcases hts u with hu | ⟨-, op, r, hc, hd, hr⟩
      · refine ih h fun t => ?_
        rcases hts t with ht | ⟨ht, hrest⟩
        · exact Or.inl ht
        · rcases List.mem_cons.mp ht with rfl | ht
          · exact Or.inl hu
          · exact Or.inr ⟨ht, hrest⟩
      · have heff := Linear.effect u h hc
        rw [show O.apply m op = (m, r) from hr] at heff
        refine ih heff fun t => ?_
        by_cases htu : t = u
        · subst htu
          exact Or.inl (by rw [Function.update_self, hd])
        · rw [Function.update_of_ne htu]
          rcases hts t with ht | ⟨ht, hrest⟩
          · exact Or.inl ht
          · exact Or.inr ⟨(List.mem_cons.mp ht).resolve_left htu, hrest⟩

/-- **The observed object has the histories of the atomic one**, whichever of the results they
have seen the pending operations settle for. The choice is made at the end, and each operation is
put where it saw its result. -/
theorem Observed.linear {H : List (Event T Op R)} {m : M} {w : T → Watch Op R}
    (h : O.Observed H m w) {ph : T → Phase Op R} (hph : ∀ t, (w t).Fits (ph t)) :
    O.Linear H m ph := by
  induction h generalizing ph with
  | init =>
      have heq : ph = fun _ => .idle := by
        funext t
        cases hp : ph t <;> have ht := hph t <;> rw [hp] at ht <;> cases ht
      exact heq ▸ Linear.init
  | @call H m w t op _ hidle ih =>
      have hbefore : O.Linear H m (Function.update ph t .idle) := by
        refine ih fun u => ?_
        by_cases hu : u = t
        · subst hu
          rw [Function.update_self, hidle]
          exact Watch.Fits.idle
        · have := hph u
          rwa [Function.update_of_ne hu] at this ⊢
      have hcall := Linear.call t op hbefore (Function.update_self t _ _)
      rw [Function.update_idem] at hcall
      refine Linear.sweep [t] hcall fun u => ?_
      by_cases hu : u = t
      · subst hu
        have hfit := hph u
        rw [Function.update_self] at hfit ⊢
        cases hp : ph u with
        | idle => rw [hp] at hfit; cases hfit
        | called op' => rw [hp] at hfit; cases hfit; exact Or.inl rfl
        | done r =>
            rw [hp] at hfit
            cases hfit with
            | seen hr => exact Or.inr ⟨by simp, op, r, rfl, rfl, hr⟩
      · exact Or.inl (Function.update_of_ne hu _ _)
  | @effect H m w t op seen hobs hcalled ih =>
      classical
      obtain ⟨ts, hts⟩ := hobs.finite
      -- an operation that first saw its result after this effect has not taken place before it
      let late : T → Prop := fun u => ∃ op' S r, w u = .called op' S ∧ ph u = .done r ∧ r ∉ S
      let before : T → Phase Op R := fun u =>
        match w u with
        | .called op' _ => if late u then .called op' else ph u
        | _ => ph u
      have hother : ∀ u, u ≠ t → ((w u).see O (O.apply m op).1).Fits (ph u) := by
        intro u hu
        have := hph u
        rwa [Function.update_of_ne hu] at this
      have hbefore : O.Linear H m (Function.update before t (.called op)) := by
        refine ih fun u => ?_
        by_cases hu : u = t
        · subst hu
          rw [Function.update_self, hcalled]
          exact Watch.Fits.called
        · rw [Function.update_of_ne hu]
          have hfit := hother u hu
          cases hw : w u with
          | idle => rw [hw] at hfit; simpa only [before, hw, Watch.see] using hfit
          | done r => rw [hw] at hfit; simpa only [before, hw, Watch.see] using hfit
          | called op' S =>
              simp only [before, hw]
              split
              · exact Watch.Fits.called
              · rename_i hlate
                rw [hw] at hfit
                cases hp : ph u with
                | idle => rw [hp] at hfit; cases hfit
                | called op'' => rw [hp] at hfit; cases hfit; exact Watch.Fits.called
                | done r =>
                    refine Watch.Fits.seen ?_
                    by_contra hr
                    exact hlate ⟨op', S, r, hw, hp, hr⟩
      have heff := Linear.effect t hbefore (Function.update_self t _ _)
      rw [Function.update_idem] at heff
      refine Linear.sweep ts heff fun u => ?_
      by_cases hu : u = t
      · subst hu
        have hfit := hph u
        rw [Function.update_self] at hfit ⊢
        cases hp : ph u <;> rw [hp] at hfit <;> cases hfit
        exact Or.inl rfl
      · rw [Function.update_of_ne hu]
        have hfit := hother u hu
        cases hw : w u with
        | idle => exact Or.inl (by simp only [before, hw])
        | done r => exact Or.inl (by simp only [before, hw])
        | called op' S =>
            simp only [before, hw]
            split
            · rename_i hlate
              obtain ⟨op₁, S₁, r, hw₁, hp, hr⟩ := hlate
              rw [hw] at hw₁ hfit
              cases hw₁
              rw [hp] at hfit
              cases hfit with
              | seen hseen =>
                  refine Or.inr ⟨hts u (by simp [hw]), op', r, rfl, hp, ?_⟩
                  exact hseen.resolve_left hr
            · exact Or.inl rfl
  | settle t _ hcalled hres ih =>
      refine ih fun u => ?_
      have hfit := hph u
      by_cases hu : u = t
      · subst hu
        rw [Function.update_self] at hfit
        rw [hcalled]
        cases hp : ph u <;> rw [hp] at hfit <;> cases hfit
        exact Watch.Fits.seen hres
      · rwa [Function.update_of_ne hu] at hfit
  | @ret H m w t res _ hdone ih =>
      have hbefore : O.Linear H m (Function.update ph t (.done res)) := by
        refine ih fun u => ?_
        have hfit := hph u
        by_cases hu : u = t
        · subst hu
          rw [Function.update_self, hdone]
          exact Watch.Fits.done
        · rwa [Function.update_of_ne hu] at hfit ⊢
      have hret := Linear.ret t hbefore (Function.update_self t _ _)
      have hidle : ph t = .idle := by
        have hfit := hph t
        rw [Function.update_self] at hfit
        cases hp : ph t <;> rw [hp] at hfit <;> cases hfit
      rw [Function.update_idem, ← hidle, Function.update_eq_self] at hret
      exact hret

end Object
