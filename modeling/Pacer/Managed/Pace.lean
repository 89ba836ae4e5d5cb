import Pacer.Managed.Model
import Pacer.Managed.Pool

set_option autoImplicit false

/-! # The threads and their guards

`Stepped` lists the steps of the tree and the reclaimer together. Where a thread stands in the
tree, in `getGuard` and in the reclaimer goes together (`Pace`): it is in an operation of the
reclaimer from the end of its `startOp` to the end of its guard, and before its `startOp` it holds
nothing. This uses what the record manager is documented to call.
-/

namespace Pacer.Managed

open Machine Abtree

variable {F K : Type} [F64 F] [LinearOrder K] {N : Nat}

/-! ## The steps -/

section Steps

variable {P : Provider K} {M : RecordManager} {b : Nat} {s s' : State F K N}
  {a : Action K P.Env N}

/-- The steps, with those of the two parts. -/
inductive Stepped (P : Provider K) (M : RecordManager) (b : Nat) (s : State F K N) :
    Action K P.Env N → State F K N → Prop
  | call (t : Fin N) (op : Op K) {tree : Abtree.State K} :
      Abtree.step P b s.tree (.call t op) = some tree →
      Stepped P M b s (.call t op)
        ⟨tree, s.reclaimer, Function.update s.pending t (M.getGuard (readOnly op))⟩
  | guard (t : Fin N) {c : Call} {cs : List Call} {r : Reclaimer.State F Nat N} :
      s.pending t = c :: cs → Reclaimer.step 1 s.reclaimer (c.action t) = some r →
      Stepped P M b s (.guard t) ⟨s.tree, r, Function.update s.pending t cs⟩
  | reclaim (ra : Reclaimer.Action Nat N) {r : Reclaimer.State F Nat N} :
      within ra = true → Reclaimer.step 1 s.reclaimer ra = some r →
      Stepped P M b s (.reclaim ra) ⟨s.tree, r, s.pending⟩
  | run (t : Fin N) (e : P.Env) {th th' : Thread K} {heap : Heap K} {rs : List Nat}
      {r : Reclaimer.State F Nat N} :
      s.guarded t → s.tree.threads[t.val]? = some th →
      instr P b s.tree.underWay s.tree.heap th e = some (heap, th', rs) →
      callAll t (M.notices rs th') s.reclaimer = some r →
      Stepped P M b s (.run t e) ⟨⟨heap, s.tree.threads.set t th', s.tree.retired ++ rs⟩, r,
        Function.update s.pending t (M.pending th')⟩
  | ret (t : Fin N) {tree : Abtree.State K} {r : Reclaimer.State F Nat N} :
      Abtree.step P b s.tree (.ret t) = some tree → callAll t M.endGuard s.reclaimer = some r →
      Stepped P M b s (.ret t) ⟨tree, r, s.pending⟩
  | reuse (x : Nat) (c : Cell K) : x ∈ s.pooled →
      Stepped P M b s (.reuse x c)
        { s with tree := { s.tree with heap := s.tree.heap.set x c } }

theorem step_cases (hs : step P M b s a = some s') : Stepped P M b s a s' := by
  cases a with
  | call t op =>
      simp only [step, Option.bind_eq_bind, Option.bind_eq_some_iff, Option.some.injEq] at hs
      obtain ⟨tree, htree, rfl⟩ := hs
      exact .call t op htree
  | guard t =>
      simp only [step] at hs
      cases hp : s.pending t with
      | nil => simp [hp] at hs
      | cons c cs =>
          simp only [hp, Option.bind_eq_bind, Option.bind_eq_some_iff, Option.some.injEq] at hs
          obtain ⟨r, hr, rfl⟩ := hs
          exact .guard t hp hr
  | reclaim ra =>
      simp only [step] at hs
      split at hs
      · rename_i hwithin
        obtain ⟨r, hr, rfl⟩ := Option.map_eq_some_iff.mp hs
        exact .reclaim ra hwithin hr
      · cases hs
  | run t e =>
      simp only [step] at hs
      split at hs
      · rename_i hguarded
        simp only [Option.bind_eq_bind, Option.bind_eq_some_iff, Prod.exists,
          Option.some.injEq] at hs
        obtain ⟨th, hth, heap, th', rs, hi, r, hr, rfl⟩ := hs
        exact .run t e hguarded hth hi hr
      · cases hs
  | ret t =>
      simp only [step, Option.bind_eq_bind, Option.bind_eq_some_iff, Option.some.injEq] at hs
      obtain ⟨tree, htree, r, hr, rfl⟩ := hs
      exact .ret t htree hr
  | reuse x c =>
      simp only [step] at hs
      split at hs
      · rename_i hx
        cases hs
        exact .reuse x c hx
      · cases hs

end Steps

/-! ## What the reclaimer learns -/

/-- The nodes `rs` are retired, and no operation begins. -/
structure Notified (r r' : Reclaimer.State F Nat N) (rs : List Nat) : Prop where
  run : ∃ tr, Run (Reclaimer.step 1) r tr r'
  begun : r'.begun = r.begun
  pool : r'.pool = r.pool
  ptrs : r'.kept.map (fun e => e.ptr) = r.kept.map (fun e => e.ptr) + (rs : Multiset Nat)
  kept : ∀ e ∈ r'.kept, e ∈ r.kept ∨ e.begunAt = r.begun

theorem Notified.refl (r : Reclaimer.State F Nat N) : Notified r r [] where
  run := ⟨[], Run.nil⟩
  begun := rfl
  pool := rfl
  ptrs := (add_zero _).symm
  kept := fun _ he => Or.inl he

theorem Notified.trans {r r₁ r₂ : Reclaimer.State F Nat N} {rs rs' : List Nat}
    (h : Notified r r₁ rs) (h' : Notified r₁ r₂ rs') : Notified r r₂ (rs ++ rs') where
  run := by
    obtain ⟨tr, hr⟩ := h.run
    obtain ⟨tr', hr'⟩ := h'.run
    exact ⟨tr ++ tr', hr.append hr'⟩
  begun := h'.begun.trans h.begun
  pool := h'.pool.trans h.pool
  ptrs := by rw [h'.ptrs, h.ptrs, add_assoc, Multiset.coe_add]
  kept := by
    intro e he
    rcases h'.kept e he with he | he
    · exact h.kept e he
    · exact Or.inr (he.trans h.begun)

theorem notified_endOp {r r' : Reclaimer.State F Nat N} {t : Fin N}
    (h : Reclaimer.step 1 r (.endOp t) = some r') : Notified r r' [] := by
  have hstep := Reclaimer.step_cases h
  have hkept : r'.kept = r.kept := (Reclaimer.kept_step hstep).trans (add_zero _)
  refine ⟨⟨_, Run.single h⟩, ?_, ?_, ?_, fun e he => Or.inl (hkept ▸ he)⟩
  · cases hstep with
    | endOp => rfl
  · cases hstep with
    | endOp => rfl
  · rw [hkept]
    exact (add_zero _).symm

theorem notified_retire {r r' : Reclaimer.State F Nat N} {t : Fin N} {x : Nat}
    (h : Reclaimer.step 1 r (.retire t 0 x) = some r') : Notified r r' [x] := by
  have hstep := Reclaimer.step_cases h
  have hkept : r'.kept = r.kept + {r.node x} := Reclaimer.kept_step hstep
  refine ⟨⟨_, Run.single h⟩, ?_, ?_, ?_, fun e he => ?_⟩
  · cases hstep with
    | retire => rfl
  · cases hstep with
    | retire => rfl
  · rw [hkept, Multiset.map_add, Multiset.map_singleton]
    rfl
  · rw [hkept, Multiset.mem_add, Multiset.mem_singleton] at he
    rcases he with he | rfl
    · exact Or.inl he
    · exact Or.inr rfl

/-! ## What the record manager calls -/

section Calls

variable {M : RecordManager} {r r' : Reclaimer.State F Nat N} {t : Fin N} {th : Thread K}
  {rs : List Nat}

theorem callAll_append (cs ds : List Call) :
    callAll t (cs ++ ds) r = (callAll t cs r).bind (callAll t ds) := List.foldlM_append

theorem callAll_singleton (c : Call) :
    callAll t [c] r = Reclaimer.step 1 r (c.action t) := by
  simp [callAll]

omit [LinearOrder K] in
theorem RecordManager.notices_eq (M : RecordManager) (rs : List Nat) (th : Thread K) :
    M.notices rs th = rs.map Call.retire ++ if (starting th.pc).isSome then [.endOp] else [] := by
  rw [notices, M.endGuard_calls]
  congr 1
  induction rs with
  | nil => rfl
  | cons x rs ih => rw [List.flatMap_cons, ih, M.retire_calls, List.map_cons, List.singleton_append]

theorem notified_retires (h : callAll t (rs.map Call.retire) r = some r') :
    Notified r r' rs ∧ r'.pc = r.pc := by
  induction rs generalizing r with
  | nil =>
      cases h
      exact ⟨Notified.refl _, rfl⟩
  | cons x rs ih =>
      rw [List.map_cons, ← List.singleton_append, callAll_append, callAll_singleton] at h
      obtain ⟨r₀, hx, hrest⟩ := Option.bind_eq_some_iff.mp h
      obtain ⟨R, hpc⟩ := ih hrest
      refine ⟨(notified_retire hx).trans R, hpc.trans ?_⟩
      cases Reclaimer.step_cases hx with
      | retire => rfl

theorem notified_endGuard (h : callAll t M.endGuard r = some r') :
    Notified r r' [] ∧ r'.pc = Function.update r.pc t .idle := by
  rw [M.endGuard_calls, callAll_singleton] at h
  refine ⟨notified_endOp h, ?_⟩
  cases Reclaimer.step_cases h with
  | endOp => rfl

omit [LinearOrder K] in
/-- **What a step of the tree tells the reclaimer.** -/
theorem notified_notices (h : callAll t (M.notices rs th) r = some r') : Notified r r' rs
    ∧ r'.pc = if (starting th.pc).isSome then Function.update r.pc t .idle else r.pc := by
  rw [M.notices_eq, callAll_append] at h
  obtain ⟨r₁, hretire, hend⟩ := Option.bind_eq_some_iff.mp h
  obtain ⟨R, hpc⟩ := notified_retires hretire
  split at hend
  · rename_i hstart
    rw [← M.endGuard_calls] at hend
    obtain ⟨R', hpc'⟩ := notified_endGuard hend
    rw [if_pos hstart, hpc', hpc]
    exact ⟨List.append_nil rs ▸ R.trans R', rfl⟩
  · rename_i hstart
    cases hend
    rw [if_neg hstart]
    exact ⟨R, hpc⟩

end Calls

/-! ## Where a thread stands -/

omit [LinearOrder K] in
theorem starting_eq_some {pc : Abtree.Pc K} {op : Op K} :
    starting pc = some op ↔ pc = .begin op := by
  cases pc <;> simp [starting]

/-- Where a thread stands in the tree, in `getGuard` and in the reclaimer. -/
inductive Pace (M : RecordManager) : Abtree.Pc K → List Call → Reclaimer.Pc → Prop
  | idle : Pace M .idle [] .idle
  /-- before `startOp` -/
  | called (op : Op K) : Pace M (.begin op) (M.getGuard (readOnly op)) .idle
  /-- in `startOp`, or just out of it -/
  | started (op : Op K) {rpc : Reclaimer.Pc} : rpc ≠ .idle → Pace M (.begin op) [] rpc
  | inside {pc : Abtree.Pc K} : pc ≠ .idle → starting pc = none → Pace M pc [] .body

def Paced (M : RecordManager) (s : State F K N) : Prop :=
  ∀ (t : Fin N) (th : Thread K), s.tree.threads[t.val]? = some th →
    Pace M th.pc (s.pending t) (s.reclaimer.pc t)

section Paced

variable {P : Provider K} {M : RecordManager} {b : Nat} {s s' : State F K N}
  {a : Action K P.Env N} {anyKey : K} {tr : List (Trans (State F K N) (Action K P.Env N))}

omit [LinearOrder K] in
/-- A thread that waits for a guard is about to get one, and its next call is `startOp`. -/
theorem Pace.of_pending {pc : Abtree.Pc K} {c : Call} {cs : List Call} {rpc : Reclaimer.Pc}
    (h : Pace M pc (c :: cs) rpc) :
    ∃ op ro, pc = .begin op ∧ c = .startOp ro ∧ cs = [] ∧ rpc = .idle := by
  generalize hcs : c :: cs = l at h
  cases h with
  | idle | started | inside => cases hcs
  | called op =>
      obtain ⟨ro, hro⟩ := M.getGuard_calls (readOnly op)
      rw [hro] at hcs
      cases hcs
      exact ⟨op, ro, rfl, rfl, rfl, rfl⟩

omit [LinearOrder K] in
/-- A thread that goes on in the tree is in an operation of the reclaimer. -/
theorem Pace.body_of_guarded {pc : Abtree.Pc K} {cs : List Call} {rpc : Reclaimer.Pc}
    (h : Pace M pc cs rpc) (hpc : pc ≠ .idle) (hcs : cs = []) (hr : rpc = .idle ∨ rpc = .body) :
    rpc = .body := by
  cases h with
  | idle => exact absurd rfl hpc
  | called op =>
      obtain ⟨ro, hro⟩ := M.getGuard_calls (readOnly op)
      rw [hro] at hcs
      cases hcs
  | started op hne => exact hr.resolve_left hne
  | inside => rfl

/-- A step within `startOp`. -/
theorem within_pc {r r' : Reclaimer.State F Nat N} {ra : Reclaimer.Action Nat N}
    (hwithin : within ra = true) (hs : Reclaimer.Stepped 1 r ra r') :
    r.pc ra.thread ≠ .idle ∧ r.pc ra.thread ≠ .body ∧ r'.pc ra.thread ≠ .idle := by
  have hrotate : ∀ j, Reclaimer.rotateFrom 1 j ≠ .idle := by
    intro j
    unfold Reclaimer.rotateFrom
    split <;> simp
  cases hs with
  | receive | start | retire | endOp => cases hwithin
  | clear t hpc | pass t hpc | rotate t _ _ hpc | select t hpc | poolAdd t _ _ hpc
  | enter t _ hpc =>
      simp [Reclaimer.Action.thread, Reclaimer.State.advance, hpc, hrotate]

theorem instr_ne_idle {others : List Nat} {h h' : Heap K} {th th' : Thread K} {e : P.Env}
    {rs : List Nat} (hs : instr P b others h th e = some (h', th', rs)) : th.pc ≠ .idle := by
  intro hpc
  simp [instr, hpc] at hs

omit [F64 F] [LinearOrder K] in
/-- Thread `t` goes on, and the others are left alone. -/
theorem Paced.set (h : Paced M s) {t : Fin N} {th th' : Thread K} {heap : Heap K} {rs : List Nat}
    {r : Reclaimer.State F Nat N} {cs : List Call} (hth : s.tree.threads[t.val]? = some th)
    (hothers : ∀ u, u ≠ t → r.pc u = s.reclaimer.pc u) (hself : Pace M th'.pc cs (r.pc t)) :
    Paced M ⟨⟨heap, s.tree.threads.set t th', rs⟩, r, Function.update s.pending t cs⟩ := by
  intro u thu hu
  show Pace M thu.pc (Function.update s.pending t cs u) (r.pc u)
  by_cases hut : u = t
  · subst hut
    rw [List.getElem?_set_self (List.getElem?_eq_some_iff.mp hth).1, Option.some.injEq] at hu
    rw [← hu, Function.update_self]
    exact hself
  · rw [List.getElem?_set_ne fun h => hut (Fin.ext h.symm)] at hu
    rw [Function.update_of_ne hut, hothers u hut]
    exact h u thu hu

/-- **One step.** -/
theorem Paced.step (h : Paced M s) (hs : Stepped P M b s a s') : Paced M s' := by
  cases hs with
  | @call t op tree htree =>
      rcases Abtree.step_cases htree with ⟨t', op', th, heq, hth, hpc, rfl⟩
        | ⟨t', e, th, th', h', rs, heq, -⟩ | ⟨t', th, heq, -⟩
      · cases heq
        refine h.set hth (fun _ _ => rfl) ?_
        have hpace := h t th hth
        rw [hpc] at hpace
        generalize s.pending t = cs at hpace
        generalize s.reclaimer.pc t = rpc at hpace ⊢
        cases hpace with
        | idle => exact Pace.called op
        | inside hne => exact absurd rfl hne
      · cases heq
      · cases heq
  | @guard t c cs r hp hr =>
      intro u thu hu
      show Pace M thu.pc (Function.update s.pending t cs u) (r.pc u)
      by_cases hut : u = t
      · subst hut
        have hpace := h u thu hu
        rw [hp] at hpace
        obtain ⟨op, ro, hpc, rfl, rfl, hidle⟩ := hpace.of_pending
        rw [hpc, Function.update_self]
        refine Pace.started op ?_
        cases Reclaimer.step_cases hr with
        | receive | start => simp [Reclaimer.State.begin, Reclaimer.State.advance]
      · rw [Function.update_of_ne hut]
        have hthread : u ≠ (c.action t).thread := by cases c <;> exact hut
        obtain ⟨-, hpc, -⟩ := Reclaimer.step_other (Reclaimer.step_cases hr) hthread
        rw [hpc]
        exact h u thu hu
  | @reclaim ra r hwithin hr =>
      have hstep := Reclaimer.step_cases hr
      intro u thu hu
      by_cases hua : u = ra.thread
      · subst hua
        have hpace := h _ thu hu
        obtain ⟨hidle, hbody, hpost⟩ := within_pc hwithin hstep
        generalize hpc : thu.pc = pc at hpace
        generalize hcs : s.pending ra.thread = cs at hpace
        generalize hrpc : s.reclaimer.pc ra.thread = rpc at hpace hidle hbody
        show Pace M pc cs (r.pc ra.thread)
        cases hpace with
        | idle | called => exact absurd rfl hidle
        | started op hne => exact Pace.started op hpost
        | inside => exact absurd rfl hbody
      · obtain ⟨-, hpc, -⟩ := Reclaimer.step_other hstep hua
        show Pace M thu.pc (s.pending u) (r.pc u)
        rw [hpc]
        exact h u thu hu
  | @run t e th th' heap rs r hguarded hth hinstr hcalls =>
      obtain ⟨-, hpc⟩ := notified_notices hcalls
      have hidle := (instr_cases hinstr).pc_ne_idle
      have hbody := (h t th hth).body_of_guarded (instr_ne_idle hinstr) hguarded.1 hguarded.2
      refine h.set hth (fun u hu => ?_) ?_
      · rw [hpc]
        split
        · exact Function.update_of_ne hu _ _
        · rfl
      · rw [hpc, RecordManager.pending]
        cases hstart : starting th'.pc with
        | some op =>
            rw [starting_eq_some.mp hstart, Option.isSome_some, if_pos rfl, Function.update_self]
            exact Pace.called op
        | none =>
            rw [Option.isSome_none, if_neg Bool.false_ne_true, hbody]
            exact Pace.inside hidle hstart
  | @ret t tree r htree hr =>
      rcases Abtree.step_cases htree with ⟨t', op', th, heq, -⟩
        | ⟨t', e, th, th', h', rs, heq, -⟩ | ⟨t', th, heq, hth, hpc, rfl⟩
      · cases heq
      · cases heq
      · cases heq
        obtain ⟨-, hrpc⟩ := notified_endGuard hr
        have hpace := h t th hth
        rw [hpc] at hpace
        have hnil : s.pending t = [] := by
          generalize s.pending t = cs at hpace
          generalize s.reclaimer.pc t = rpc at hpace
          cases hpace with
          | inside => rfl
        have hset : Paced M ⟨⟨s.tree.heap, s.tree.threads.set t { th with pc := .idle },
            s.tree.retired⟩, r, Function.update s.pending t []⟩ := by
          refine h.set hth (fun u hu => ?_) ?_
          · rw [hrpc]
            exact Function.update_of_ne hu _ _
          · rw [hrpc, Function.update_self]
            exact Pace.idle
        rwa [← hnil, Function.update_eq_self] at hset
  | reuse x c hx => exact h

end Paced

end Pacer.Managed
