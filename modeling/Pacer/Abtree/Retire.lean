import Pacer.Abtree.Balance
import Mathlib.Data.List.Perm.Basic

set_option autoImplicit false

/-! # Every removed node is retired once

An SCX removes some nodes from the tree, and the thread that made it passes them to the record
manager one by one. `Accounted` says that the nodes that have been retired, together with those
that threads are still going to retire, are the removed nodes, each of them once. Every step keeps
it (`Move.removed`), so nothing is retired twice, nothing that is in the tree is retired, and
nothing that has been removed is forgotten (`retired_once`).
-/

namespace Pacer.Abtree

open Machine RangeGraph Relation

variable {K : Type} [LinearOrder K]

/-! ## Lists of threads -/

section Threads

variable {α β : Type*} {f : α → List β}

/-- One thread and what the others contribute. -/
theorem exists_perm_flatMap_set {ths : List α} {t : Nat} {th : α} (hth : ths[t]? = some th) :
    ∃ rest, (ths.flatMap f).Perm (f th ++ rest)
      ∧ ∀ th', ((ths.set t th').flatMap f).Perm (f th' ++ rest) := by
  induction ths generalizing t with
  | nil => cases hth
  | cons u ths ih =>
      cases t with
      | zero =>
          obtain rfl : u = th := Option.some.inj hth
          exact ⟨ths.flatMap f, List.Perm.refl _, fun th' => List.Perm.refl _⟩
      | succ t =>
          obtain ⟨rest, hrest, hset⟩ := ih hth
          have hswap : ∀ a, (f u ++ (f a ++ rest)).Perm (f a ++ (f u ++ rest)) := fun a => by
            rw [← List.append_assoc, ← List.append_assoc]
            exact List.perm_append_comm.append_right rest
          refine ⟨f u ++ rest, ?_, fun th' => ?_⟩
          · rw [List.flatMap_cons]
            exact (hrest.append_left _).trans (hswap th)
          · rw [List.set_cons_succ, List.flatMap_cons]
            exact ((hset th').append_left _).trans (hswap th')

end Threads

/-! ## The nodes that are removed -/

/-- The node has been published and is no longer in the tree. -/
def Heap.Removed (h : Heap K) (x : Nat) : Prop := x < h.length ∧ ¬ h.Member x

/-- The removed nodes that a thread is going to retire. -/
def Thread.retiring (th : Thread K) : List Nat :=
  match th.pc with
  | .retire nodes => nodes
  | _ => []

section Step

variable {b : Nat} {h h' : Heap K} {lab : Labels K} {th th' : Thread K} {rs : List Nat}

section

omit [LinearOrder K]

theorem Thread.pop_retiring (th : Thread K) : th.pop.retiring = [] := by
  cases hs : th.stack with
  | nil => rw [Thread.pop, hs]; rfl
  | cons fr stack => cases fr <;> rw [Thread.pop, hs] <;> rfl

theorem Thread.advance_retiring (th : Thread K) (w : Attempt K) :
    (th.advance w).retiring = [] := by
  rcases th.advance_cases w with ⟨heq, -⟩ | ⟨heq, -⟩ | ⟨heq, -⟩ <;> rw [heq] <;> rfl

theorem Thread.retry_retiring (th : Thread K) (task : Task K) : (th.retry task).retiring = [] := by
  cases task <;> rfl

theorem Returns.retiring {frames : List Frame} (R : Returns h th.pc frames) :
    th.retiring = [] := by
  rw [Thread.retiring]
  generalize th.pc = pc at R
  cases R <;> rfl

end

/-- The nodes that a change removes. -/
theorem Fits.removed_iff {V R : List Nat} {g ix old top : Nat} {news : List (Node K)}
    {rem : List Nat} {labs : List (Label K)} (F : Fits b h lab V R g ix old top news rem labs)
    (L : Labelled b h lab) (x : Nat) :
    (h.change V R g ix (h.length + top) news).Removed x ↔ h.Removed x ∨ x ∈ rem := by
  have hold := F.member.tail (List.mem_of_getElem? (Heap.child_eq_some.mp F.old_kid))
  have hrem : ∀ y ∈ rem, h.Member y := by
    intro y hy
    rcases F.rem_kid y hy with rfl | hy
    · exact hold
    · exact hold.tail hy
  rw [Heap.Removed, Heap.Removed, F.member_iff L x, Heap.change_length, Fits.mem_added]
  constructor
  · rintro ⟨hlt, hno⟩
    rw [not_or, not_and_not_right] at hno
    obtain ⟨hkept, hnew⟩ := hno
    by_cases hx : x < h.length
    · by_cases hm : h.Member x
      · exact Or.inr (hkept hm)
      · exact Or.inl ⟨hx, hm⟩
    · exact absurd ⟨x - h.length, by omega, by omega⟩ hnew
  · have hfresh : x < h.length → ¬ ∃ i, x = h.length + i ∧ i < news.length := by
      rintro hx ⟨i, rfl, -⟩
      omega
    rintro (⟨hx, hm⟩ | hx)
    · exact ⟨by omega, fun hno => hno.elim (fun h' => hm h'.1) (hfresh hx)⟩
    · have hlt := L.ranged.member_pub (hrem x hx)
      exact ⟨by omega, fun hno => hno.elim (fun h' => h'.2 hx) (hfresh hlt)⟩

/-- **What a step removes**, it leaves to its thread to retire. -/
theorem Move.removed (hb : 3 ≤ b) (L : Labelled b h lab) (T : ThreadOk h lab th)
    (M : Move b h th h' th' rs) :
    ∃ rem, rem.Nodup ∧ (∀ x ∈ rem, h.Member x) ∧ (∀ x, h'.Removed x ↔ h.Removed x ∨ x ∈ rem)
      ∧ (rs ++ th'.retiring).Perm (th.retiring ++ rem) := by
  have hnone : ∀ th' : Thread K, th.retiring = [] → th'.retiring = [] →
      ∃ rem, rem.Nodup ∧ (∀ x ∈ rem, h.Member x) ∧ (∀ x, h.Removed x ↔ h.Removed x ∨ x ∈ rem)
        ∧ ([] ++ th'.retiring).Perm (th.retiring ++ rem) := by
    intro th' hth hth'
    refine ⟨[], List.nodup_nil, (fun x hx => by cases hx), fun x => ?_, by rw [hth, hth']⟩
    simp
  have hpc : ∀ pc, th.pc = pc → th.retiring
      = match pc with
        | .retire nodes => nodes
        | _ => [] := by
    rintro pc rfl
    rfl
  cases M with
  | begin he | enter he | descend he | aim he | aimWeight he | aimDegree he | look he | present he
  | link he => exact hnone _ (hpc _ he) rfl
  | answer he => exact hnone _ (hpc _ he) (Thread.pop_retiring _)
  | linked he | checked he | sibling he =>
      exact hnone _ (hpc _ he) (Thread.advance_retiring _ _)
  | @retry w he =>
      refine hnone _ ?_ (Thread.retry_retiring _ _)
      rcases he with he | ⟨info, he⟩ | he <;> exact hpc _ he
  | @commit w u k he hu X =>
      have hok := T.pc
      rw [he] at hok
      obtain ⟨A, htodo, hsib⟩ := hok
      obtain ⟨old, top, labs, C, heq⟩ := A.committed hb L htodo hsib hu X
      rw [heq]
      have hold := C.fits.member.tail
        (List.mem_of_getElem? (Heap.child_eq_some.mp C.fits.old_kid))
      refine ⟨u.retire, C.nodup, fun x hx => ?_, fun x => ?_, ?_⟩
      · rcases C.fits.rem_kid x hx with rfl | hx
        · exact hold
        · exact hold.tail hx
      · rw [C.new_eq]
        exact C.fits.removed_iff L x
      · rw [hpc _ he]
        exact List.Perm.refl _
  | @retire x nodes he =>
      refine ⟨[], List.nodup_nil, (fun x hx => by cases hx), fun y => by simp, ?_⟩
      rw [hpc _ he, List.append_nil]
      exact List.Perm.refl _
  | returns R => exact hnone _ R.retiring (Thread.pop_retiring _)

end Step

/-! ## The machine -/

/-- The retired nodes and those that are going to be retired are the removed ones, each of them
once. -/
structure Accounted (s : State K) : Prop where
  nodup : (s.retired ++ s.threads.flatMap Thread.retiring).Nodup
  removed : ∀ x, x ∈ s.retired ++ s.threads.flatMap Thread.retiring ↔ s.heap.Removed x

section Machine

variable {P : Provider K} {b : Nat} {s s' : State K} {anyKey : K} {numProcesses : Nat}
  {tr : List (Trans (State K) (Action K P.Env))}

theorem accounted_init (anyKey : K) (numProcesses : Nat) :
    Accounted (init anyKey numProcesses) := by
  have hnil : (init anyKey numProcesses).threads.flatMap Thread.retiring = [] := by
    rw [List.flatMap_eq_nil_iff]
    intro th hth
    rw [(List.mem_replicate.mp hth).2]
    rfl
  refine ⟨by rw [hnil]; exact List.nodup_nil, fun x => ?_⟩
  rw [hnil]
  refine ⟨(fun hx => by cases hx), fun hx => absurd ?_ hx.2⟩
  have hkid : (init anyKey numProcesses).heap.graph.kids entry = [entryLeft] := rfl
  have hcase : x = 0 ∨ x = 1 := by
    have : x < 2 := hx.1
    omega
  rcases hcase with rfl | rfl
  · exact ReflTransGen.single (show entryLeft ∈ _ by rw [hkid]; exact List.mem_singleton_self _)
  · exact ReflTransGen.refl

theorem Accounted.of_perm {l : List Nat} (A : Accounted s)
    (hl : l.Perm (s.retired ++ s.threads.flatMap Thread.retiring)) :
    l.Nodup ∧ ∀ x, x ∈ l ↔ s.heap.Removed x :=
  ⟨hl.nodup_iff.mpr A.nodup, fun x => hl.mem_iff.trans (A.removed x)⟩

theorem Accounted.retired_removed (A : Accounted s) {x : Nat} (hx : x ∈ s.retired) :
    s.heap.Removed x :=
  (A.removed x).mp (List.mem_append_left _ hx)

theorem StateOk.accounted {lab : Labels K} {a : Action K P.Env} (hb : 3 ≤ b) (S : StateOk b s lab)
    (A : Accounted s) (hs : Abtree.step P b s a = some s') : Accounted s' := by
  -- a step that is no step of the tree changes neither side
  have hsame : ∀ (t : Nat) (th th' : Thread K), s.threads[t]? = some th → th.retiring = [] →
      th'.retiring = [] → Accounted { s with threads := s.threads.set t th' } := by
    intro t th th' hth hth₀ hth₁
    obtain ⟨rest, hrest, hset⟩ := exists_perm_flatMap_set (f := Thread.retiring) hth
    rw [hth₀] at hrest
    have hset' := hset th'
    rw [hth₁] at hset'
    obtain ⟨hnd, hmem⟩ := A.of_perm ((hset'.trans hrest.symm).append_left s.retired)
    exact ⟨hnd, hmem⟩
  rcases step_cases hs with ⟨t, op, th, rfl, hth, hpc, rfl⟩
    | ⟨t, e, th, th', h', rs, rfl, hth, M, rfl⟩ | ⟨t, th, rfl, hth, hpc, rfl⟩
  · exact hsame t th _ hth (by rw [Thread.retiring, hpc]) rfl
  · obtain ⟨rem, hnd, hmem, hrem, hperm⟩ :=
      M.removed hb S.heap (S.threads th (List.mem_of_getElem? hth))
    obtain ⟨rest, hrest, hset⟩ := exists_perm_flatMap_set (f := Thread.retiring) hth
    have hbig : ((s.retired ++ rs) ++ (s.threads.set t th').flatMap Thread.retiring).Perm
        ((s.retired ++ s.threads.flatMap Thread.retiring) ++ rem) := by
      calc List.Perm ((s.retired ++ rs) ++ (s.threads.set t th').flatMap Thread.retiring)
            ((s.retired ++ rs) ++ (th'.retiring ++ rest)) := (hset th').append_left _
        _ = s.retired ++ ((rs ++ th'.retiring) ++ rest) := by simp only [List.append_assoc]
        List.Perm _ (s.retired ++ ((th.retiring ++ rem) ++ rest)) :=
          (hperm.append_right rest).append_left _
        List.Perm _ (s.retired ++ ((th.retiring ++ rest) ++ rem)) := by
          simp only [List.append_assoc]
          exact (List.perm_append_comm.append_left _).append_left _
        List.Perm _ (s.retired ++ (s.threads.flatMap Thread.retiring ++ rem)) :=
          (hrest.symm.append_right rem).append_left _
        _ = (s.retired ++ s.threads.flatMap Thread.retiring) ++ rem :=
          (List.append_assoc _ _ _).symm
    refine ⟨hbig.nodup_iff.mpr ?_, fun x => ?_⟩
    · refine List.Nodup.append A.nodup hnd fun x hx hx' => ?_
      exact ((A.removed x).mp hx).2 (hmem x hx')
    · rw [hbig.mem_iff, List.mem_append, A.removed x]
      exact (hrem x).symm
  · exact hsame t th _ hth (by rw [Thread.retiring, hpc]) rfl

theorem exists_accounted (hb : 3 ≤ b) (hr : Run (step P b) (init anyKey numProcesses) tr s) :
    Accounted s :=
  ((stateOk_init (by omega) anyKey numProcesses).run_invariant hb hr
    (accounted_init anyKey numProcesses) fun _ _ _ _ S A hs => S.accounted hb A hs).2

/-- **Every removed node is retired once.** No node is retired twice; a retired node is no longer
in the tree, and it is finalized unless it is a leaf; and a node that is no longer in the tree has
been retired, or a thread is between the SCX that removed it and its retirement. -/
theorem retired_once (hb : 3 ≤ b) (hr : Run (step P b) (init anyKey numProcesses) tr s) :
    s.retired.Nodup
      ∧ (∀ x ∈ s.retired, ∃ c : Cell K, s.heap[x]? = some c ∧ ¬ s.heap.Member x
        ∧ (c.marked = true ↔ c.node.leaf = false))
      ∧ ∀ x < s.heap.length, ¬ s.heap.Member x →
        x ∈ s.retired ∨ ∃ th ∈ s.threads, ∃ nodes, th.pc = .retire nodes ∧ x ∈ nodes := by
  have A := exists_accounted hb hr
  obtain ⟨lab, S⟩ := exists_stateOk hb hr
  refine ⟨(List.nodup_append.mp A.nodup).1, fun x hx => ?_, fun x hlt hno => ?_⟩
  · obtain ⟨hlt, hno⟩ := A.retired_removed hx
    have hc := List.getElem?_eq_getElem hlt
    refine ⟨_, hc, hno, ?_⟩
    cases hleaf : s.heap[x].node.leaf with
    | true => simp [S.heap.leaf_unmarked x _ hc hleaf]
    | false => simp [(S.heap.marked_iff x _ hc hleaf).mpr hno]
  · rcases List.mem_append.mp ((A.removed x).mpr ⟨hlt, hno⟩) with hx | hx
    · exact Or.inl hx
    · obtain ⟨th, hth, hx⟩ := List.mem_flatMap.mp hx
      rw [Thread.retiring] at hx
      split at hx
      · rename_i nodes hpc
        exact Or.inr ⟨th, hth, nodes, hpc, hx⟩
      · cases hx

end Machine

/-- The last of six insertions with `b = 3` removes the inner nodes `7` and `11`. -/
theorem retired_once_split : ∃ tr s, Run (step (.atomic Nat) 3) (init (0 : Nat) 1) tr s
    ∧ s.retired = [0, 2, 3, 4, 6, 8, 7, 11] ∧ s.retired.Nodup
    ∧ ∃ c : Cell Nat, s.heap[7]? = some c ∧ ¬ s.heap.Member 7
      ∧ (c.marked = true ↔ c.node.leaf = false) := by
  obtain ⟨tr, s, hr, hp⟩ := exists_run_of_replay (step (.atomic Nat) 3) (init (0 : Nat) 1)
    (insertions [9, 9, 9, 9, 10, 24]) (fun _ s => decide (s.retired = [0, 2, 3, 4, 6, 8, 7, 11]))
    (by decide +kernel)
  have hret := of_decide_eq_true hp
  obtain ⟨hnodup, hgone, -⟩ := retired_once (by decide) hr
  exact ⟨tr, s, hr, hret, hnodup, hgone 7 (by rw [hret]; decide)⟩

end Pacer.Abtree
