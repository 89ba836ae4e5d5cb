import Pacer.Abtree.Safety

set_option autoImplicit false

/-! # Balance, and who repairs it

On every path from the root to a leaf there is the same number of nodes of weight one
(`leaves_same_weight`). A node of weight zero is a violation. The source repairs violations by
recursive calls, and a thread that finds its violation gone leaves what has become of it to the
thread that removed it. `violation_charged` says that this hand-over never loses a violation of
weight: as long as such a node is in the tree some thread is still going to fix it. So when all
threads are idle there is none, and all leaves are equally deep (`idle_same_depth`).
-/

namespace Pacer.Abtree

open Machine RangeGraph Relation

variable {K : Type} [LinearOrder K]

/-! ## Paths -/

/-- A path along `d` pointers to nodes whose weights sum up to `w`. -/
inductive Heap.Path (h : Heap K) : Nat → Nat → Nat → Nat → Prop
  | nil (x : Nat) : h.Path x x 0 0
  | cons {x c y d w : Nat} : c ∈ h.graph.kids x → h.Path c y d w →
      h.Path x y (d + 1) (h.weight c + w)

section Path

variable {b : Nat} {h : Heap K} {lab : Labels K} {x y d w : Nat}

theorem Heap.Path.member (P : h.Path x y d w) (hx : h.Member x) : h.Member y := by
  induction P with
  | nil => exact hx
  | cons hc _ ih => exact ih (hx.tail hc)

/-- **Below the entry the levels fall by the weights.** -/
theorem Heap.Path.level (P : h.Path x y d w) (L : Labelled b h lab) (hx : h.Member x)
    (hne : x ≠ entry) : (lab y).level + w = (lab x).level := by
  induction P with
  | nil => rfl
  | @cons x c y d w hc _ ih =>
      have hstep : (lab c).level + h.weight c = (lab x).level := by
        obtain ⟨n, hn⟩ := Heap.exists_node (L.ranged.member_pub hx)
        rw [Heap.graph_kids hn] at hc
        exact (L.node_at x n hn).kid_level hne c hc
      have := ih (hx.tail hc) (L.kid_ne_entry hx hc)
      omega

theorem Heap.Path.depth_eq (P : h.Path x y d w) (hx : h.Member x)
    (hone : ∀ c, h.Member c → h.weight c = 1) : w = d := by
  induction P with
  | nil => rfl
  | @cons x c y d w hc _ ih =>
      rw [hone c (hx.tail hc), ih (hx.tail hc), Nat.add_comm]

theorem Labelled.weight_eq_of_leaves (L : Labelled b h lab) {r e v : Nat} {n m : Node K}
    (hr : h.child entry 0 = some r) (P : h.Path r x d w) (Q : h.Path r y e v)
    (hx : h.node x = some n) (hleaf : n.leaf = true) (hy : h.node y = some m)
    (hleaf' : m.leaf = true) : w = v := by
  have hkid : r ∈ h.graph.kids entry := List.mem_of_getElem? (Heap.child_eq_some.mp hr)
  have hm : h.Member r := ReflTransGen.single hkid
  have hne := L.kid_ne_entry ReflTransGen.refl hkid
  have hP := P.level L hm hne
  have hQ := Q.level L hm hne
  rw [(L.level_eq_zero_iff hx).mpr hleaf] at hP
  rw [(L.level_eq_zero_iff hy).mpr hleaf'] at hQ
  omega

end Path

/-! ## Who is in charge -/

def Task.fixes : Task K → List Fix
  | .op _ => []
  | .fix f => [f]

/-- The fix whose loop a thread is in. -/
def Pc.fixes : Pc K → List Fix
  | .enter task | .search task _ _ => task.fixes
  | .check f | .inspect f => [f]
  | .llx w | .recheck w _ | .sibling w | .scx w => w.task.fixes
  | _ => []

def Frame.fix : Frame → Fix
  | .call f | .loop f => f

/-- The violations a thread is going to fix: that of its loop, and those of its stack. -/
def Thread.charge (th : Thread K) : List Fix := th.pc.fixes ++ th.stack.map Frame.fix

section Charge

variable {b : Nat} {h h' : Heap K} {lab : Labels K} {th th' : Thread K} {rs : List Nat}

section

omit [LinearOrder K]

theorem Thread.pop_charge (th : Thread K) : th.pop.charge = th.stack.map Frame.fix := by
  cases hs : th.stack with
  | nil => rw [Thread.pop, hs]; rfl
  | cons fr stack => cases fr <;> rw [Thread.pop, hs] <;> rfl

theorem Thread.advance_charge (th : Thread K) (w : Attempt K) :
    (th.advance w).charge = w.task.fixes ++ th.stack.map Frame.fix := by
  rcases th.advance_cases w with ⟨heq, -⟩ | ⟨heq, -⟩ | ⟨heq, -⟩ <;> rw [heq] <;> rfl

theorem Thread.retry_charge (th : Thread K) (task : Task K) :
    (th.retry task).charge = task.fixes ++ th.stack.map Frame.fix := by
  cases task <;> rfl

end

/-- **A loop is left only when its violation of weight is gone**, or to come back to it. -/
theorem Returns.charge (L : Labelled b h lab) (T : ThreadOk h lab th) {frames : List Frame}
    (R : Returns h th.pc frames) {x : Nat} {n : Node K} (hx : h.Member x)
    (hn : h.node x = some n) (hw : n.weight = false) (hch : .weight x ∈ th.pc.fixes) :
    .weight x ∈ frames.map Frame.fix := by
  have hpc := T.pc
  generalize th.pc = pc at R hpc hch
  have hinner : n.leaf = false := by
    cases hl : n.leaf with
    | false => rfl
    | true => rw [(L.node_ok x n hn).leaf_weight hl] at hw; cases hw
  cases R with
  | retired => cases hch
  | @lost f key c l hl hleaf hne =>
      obtain rfl := List.mem_singleton.mp hch
      obtain ⟨-, -, C⟩ := hpc
      have hway := C.way x rfl hx
      have hkids : h.graph.kids c.l = [] := by rw [Heap.graph_kids hl, Node.kids_leaf hleaf]
      exact absurd (Reaches.eq_of_leaf hway hkids) hne
  | parent hp hpw =>
      obtain rfl := Fix.weight.inj (List.mem_singleton.mp hch)
      exact List.mem_cons_of_mem _ (List.mem_singleton_self _)
  | @settled f hset =>
      obtain rfl := List.mem_singleton.mp hch
      rw [hset x n rfl hn] at hw
      cases hw
  | @gone f c hc hmark =>
      obtain rfl := List.mem_singleton.mp hch
      obtain ⟨c', hc', rfl⟩ := Heap.node_eq_some.mp hn
      obtain rfl := Option.some.inj (hc.symm.trans hc')
      exact absurd hx ((L.marked_iff x c hc hinner).mp hmark)
  | single =>
      obtain ⟨-, -, -, v, htask⟩ := hpc
      rw [Pc.fixes, htask] at hch
      cases List.mem_singleton.mp hch
  | heavy hp hl hs hsn htask =>
      obtain ⟨-, -, -, v, htask'⟩ := hpc
      rw [Pc.fixes, htask'] at hch
      cases List.mem_singleton.mp hch

/-- **The hand-over**: a node of weight zero that is in the tree after a step was there before and
is not lost by the thread, or the thread has just made it and is going to fix it. -/
theorem Move.charge (hb : 3 ≤ b) (L : Labelled b h lab) (T : ThreadOk h lab th)
    (M : Move b h th h' th' rs) {x : Nat} {n : Node K} (hx : h'.Member x)
    (hn : h'.node x = some n) (hw : n.weight = false) :
    (∃ m, h.Member x ∧ h.node x = some m ∧ m.weight = false
      ∧ (.weight x ∈ th.charge → .weight x ∈ th'.charge)) ∨ .weight x ∈ th'.charge := by
  have hkeep : ∀ pc : Pc K, th.pc = pc → (.weight x ∈ pc.fixes → .weight x ∈ th'.pc.fixes) →
      th'.stack = th.stack → .weight x ∈ th.charge → .weight x ∈ th'.charge := by
    rintro pc rfl hpc hst hch
    rcases List.mem_append.mp hch with hch | hch
    · exact List.mem_append_left _ (hpc hch)
    · exact List.mem_append_right _ (hst ▸ hch)
  cases M with
  | begin he => exact Or.inl ⟨n, hx, hn, hw, hkeep _ he (fun hch => by cases hch) rfl⟩
  | enter he | descend he | aim he | aimWeight he | aimDegree he | look he | present he | link he
  | retire he =>
      exact Or.inl ⟨n, hx, hn, hw, hkeep _ he (fun hch => hch) rfl⟩
  | answer he =>
      refine Or.inl ⟨n, hx, hn, hw, fun hch => ?_⟩
      rw [Thread.charge, he] at hch
      rw [Thread.finish, Thread.pop_charge]
      exact hch
  | linked he | checked he | sibling he =>
      refine Or.inl ⟨n, hx, hn, hw, fun hch => ?_⟩
      rw [Thread.charge, he] at hch
      rw [Thread.advance_charge]
      exact hch
  | retry he =>
      refine Or.inl ⟨n, hx, hn, hw, fun hch => ?_⟩
      rw [Thread.retry_charge]
      rcases he with he | ⟨info, he⟩ | he <;> rw [Thread.charge, he] at hch <;> exact hch
  | returns R =>
      refine Or.inl ⟨n, hx, hn, hw, fun hch => ?_⟩
      rw [Thread.pop_charge, Thread.push, List.map_append]
      rcases List.mem_append.mp hch with hch | hch
      · exact List.mem_append_left _ (R.charge L T hx hn hw hch)
      · exact List.mem_append_right _ hch
  | @commit w u k he hu X =>
      have hpc := T.pc
      rw [he] at hpc
      obtain ⟨A, htodo, hsib⟩ := hpc
      obtain ⟨old, top, labs, C, heq⟩ := A.committed hb L htodo hsib hu X
      rw [heq] at hx hn
      rw [C.new_eq] at hx hn
      rcases (C.fits.member_iff L x).mp hx with ⟨hm, hrem⟩ | hadd
      · obtain ⟨m, hm'⟩ := Heap.exists_node (L.ranged.member_pub hm)
        have hmw : m.weight = false := by
          rw [Heap.change_node_old hm', Option.some.injEq] at hn
          subst hn
          split at hw <;> exact hw
        refine Or.inl ⟨m, hm, hm', hmw, fun hch => ?_⟩
        rw [Thread.charge, he] at hch
        rcases List.mem_append.mp hch with hch | hch
        · refine absurd (C.viol x ?_) hrem
          cases ht : w.task with
          | op op => rw [Pc.fixes, ht] at hch; cases hch
          | fix f =>
              rw [Pc.fixes, ht] at hch
              obtain rfl := List.mem_singleton.mp hch
              rfl
        · refine List.mem_append_right _ ?_
          rw [List.map_append]
          exact List.mem_append_right _ hch
      · obtain ⟨i, rfl, hi⟩ := Fits.mem_added.mp hadd
        rw [Heap.change_node_new] at hn
        refine Or.inr (List.mem_append_right _ ?_)
        rw [List.map_append, List.map_map]
        exact List.mem_append_left _ (List.mem_map.mpr ⟨_, C.zero i n hn hw, rfl⟩)

end Charge

/-! ## The machine -/

/-- Every node of weight zero in the tree is going to be fixed. -/
def Charged (s : State K) : Prop :=
  ∀ x n, s.heap.Member x → s.heap.node x = some n → n.weight = false →
    ∃ th ∈ s.threads, .weight x ∈ th.charge

section Machine

variable {P : Provider K} {b : Nat} {s s' : State K} {anyKey : K} {numProcesses : Nat}
  {tr : List (Trans (State K) (Action K P.Env))}

omit [LinearOrder K] in
/-- A thread that is replaced by one with at least its charge. -/
theorem exists_charge_set {ths : List (Thread K)} {t : Nat} {th th' : Thread K} {f : Fix}
    (hth : ths[t]? = some th) (hch : ∃ u ∈ ths, f ∈ u.charge)
    (hkeep : f ∈ th.charge → f ∈ th'.charge) : ∃ u ∈ ths.set t th', f ∈ u.charge := by
  obtain ⟨hlt, -⟩ := List.getElem?_eq_some_iff.mp hth
  obtain ⟨u, hu, hf⟩ := hch
  obtain ⟨i, hi⟩ := List.getElem?_of_mem hu
  by_cases hit : i = t
  · subst hit
    obtain rfl := Option.some.inj (hth.symm.trans hi)
    exact ⟨th', List.mem_set hlt th', hkeep hf⟩
  · refine ⟨u, List.mem_of_getElem? (i := i) ?_, hf⟩
    rw [List.getElem?_set_ne (Ne.symm hit), hi]

theorem StateOk.charged {lab : Labels K} {a : Action K P.Env} (hb : 3 ≤ b) (S : StateOk b s lab)
    (hc : Charged s) (hs : Abtree.step P b s a = some s') : Charged s' := by
  intro x n hx hn hw
  rcases step_cases hs with ⟨t, op, th, rfl, hth, hpc, rfl⟩
    | ⟨t, e, th, th', h', rs, rfl, hth, M, rfl⟩ | ⟨t, th, rfl, hth, hpc, rfl⟩
  · refine exists_charge_set hth (hc x n hx hn hw) fun hch => ?_
    rwa [Thread.charge, hpc] at hch
  · have hmem := List.mem_of_getElem? hth
    rcases M.charge hb S.heap (S.threads th hmem) hx hn hw with ⟨m, hm, hmn, hmw, hkeep⟩ | hch
    · exact exists_charge_set hth (hc x m hm hmn hmw) hkeep
    · exact ⟨th', List.mem_set (List.getElem?_eq_some_iff.mp hth).1 th', hch⟩
  · refine exists_charge_set hth (hc x n hx hn hw) fun hch => ?_
    rwa [Thread.charge, hpc] at hch

/-- **No violation of weight is forgotten**: whatever the interleaving, a node of weight zero that
is in the tree is still going to be fixed by some thread. -/
theorem violation_charged (hb : 3 ≤ b) (hr : Run (step P b) (init anyKey numProcesses) tr s)
    {x : Nat} {n : Node K} (hx : s.heap.Member x) (hn : s.heap.node x = some n)
    (hw : n.weight = false) : ∃ th ∈ s.threads, .weight x ∈ th.charge := by
  have hinit : Charged (init anyKey numProcesses) := by
    intro y m _ hm hmw
    obtain ⟨c, hc, rfl⟩ := Heap.node_eq_some.mp hm
    obtain ⟨-, ⟨-, h⟩ | ⟨-, h⟩⟩ := init_nodes anyKey numProcesses y c hc <;> rw [h] at hmw <;>
      cases hmw
  have hinv := (stateOk_init (by omega) anyKey numProcesses).run_invariant hb hr hinit
    fun _ _ _ _ S hc hs => S.charged hb hc hs
  exact hinv.2 x n hx hn hw

/-- **Every path from the root to a leaf has the same weight.** -/
theorem leaves_same_weight (hb : 3 ≤ b) (hr : Run (step P b) (init anyKey numProcesses) tr s)
    {r x y d e w v : Nat} {n m : Node K} (hroot : s.heap.child entry 0 = some r)
    (P : s.heap.Path r x d w) (Q : s.heap.Path r y e v) (hx : s.heap.node x = some n)
    (hleaf : n.leaf = true) (hy : s.heap.node y = some m) (hleaf' : m.leaf = true) : w = v := by
  obtain ⟨lab, S⟩ := exists_stateOk hb hr
  exact S.heap.weight_eq_of_leaves hroot P Q hx hleaf hy hleaf'

/-- **At rest the tree is balanced**: when no thread is in an operation all leaves have the same
depth. -/
theorem idle_same_depth (hb : 3 ≤ b) (hr : Run (step P b) (init anyKey numProcesses) tr s)
    (hidle : ∀ th ∈ s.threads, th.pc = .idle) {r x y d e w v : Nat} {n m : Node K}
    (hroot : s.heap.child entry 0 = some r) (P : s.heap.Path r x d w) (Q : s.heap.Path r y e v)
    (hx : s.heap.node x = some n) (hleaf : n.leaf = true) (hy : s.heap.node y = some m)
    (hleaf' : m.leaf = true) : d = e := by
  obtain ⟨lab, S⟩ := exists_stateOk hb hr
  have hone : ∀ c, s.heap.Member c → s.heap.weight c = 1 := by
    intro c hc
    obtain ⟨k, hk⟩ := Heap.exists_node (S.heap.ranged.member_pub hc)
    rw [Heap.weight_eq hk]
    cases hw : k.weight with
    | true => rfl
    | false =>
        -- the thread in charge would not be idle
        obtain ⟨th, hth, hch⟩ := violation_charged hb hr hc hk hw
        have hst := (S.threads th hth).outer (Or.inr (Or.inl (hidle th hth)))
        rw [Thread.charge, hidle th hth, hst] at hch
        cases hch
  have hm : s.heap.Member r :=
    ReflTransGen.single (List.mem_of_getElem? (Heap.child_eq_some.mp hroot))
  have hwv := leaves_same_weight hb hr hroot P Q hx hleaf hy hleaf'
  rw [P.depth_eq hm hone, Q.depth_eq hm hone] at hwv
  exact hwv

end Machine

theorem Heap.path_one {h : Heap K} {r x : Nat} (hx : h.child r 0 = some x ∨ h.child r 1 = some x) :
    h.Path r x (0 + 1) (h.weight x + 0) := by
  rcases hx with hx | hx <;> exact .cons (List.mem_of_getElem? (Heap.child_eq_some.mp hx)) (.nil x)

/-- The node of weight zero that the sixth insertion has put under the root. -/
theorem violation_charged_split : ∃ tr s, Run (step (.atomic Nat) 3) (init (0 : Nat) 1) tr s
    ∧ ∃ th ∈ s.threads, .weight 11 ∈ th.charge := by
  obtain ⟨tr, s, hr, hp⟩ := exists_run_of_replay (step (.atomic Nat) 3) (init (0 : Nat) 1) splitting
    (fun _ s => decide (s.heap.child entry 0 = some 7 ∧ s.heap.child 7 1 = some 11
      ∧ (s.heap.node 11).map Node.weight = some false)) (by decide +kernel)
  obtain ⟨hroot, hkid, hnode⟩ := of_decide_eq_true hp
  obtain ⟨n, hn, hw⟩ := Option.map_eq_some_iff.mp hnode
  have hmem : s.heap.Member 11 :=
    (ReflTransGen.single (List.mem_of_getElem? (Heap.child_eq_some.mp hroot))).tail
      (List.mem_of_getElem? (Heap.child_eq_some.mp hkid))
  exact ⟨tr, s, hr, violation_charged (by decide) hr hmem hn hw⟩

/-- There the leaf `5` is a child of the root, and the leaf `10` lies below the node `11` of weight
zero. -/
theorem leaves_same_weight_split : ∃ tr s w v, Run (step (.atomic Nat) 3) (init (0 : Nat) 1) tr s
    ∧ s.heap.weight 11 = 0 ∧ s.heap.Path 7 5 1 w ∧ s.heap.Path 7 10 2 v ∧ w = v := by
  obtain ⟨tr, s, hr, hp⟩ := exists_run_of_replay (step (.atomic Nat) 3) (init (0 : Nat) 1) splitting
    (fun _ s => decide (s.heap.child entry 0 = some 7 ∧ s.heap.child 7 0 = some 5
      ∧ s.heap.child 7 1 = some 11 ∧ s.heap.child 11 1 = some 10 ∧ s.heap.weight 11 = 0
      ∧ (s.heap.node 5).map Node.leaf = some true ∧ (s.heap.node 10).map Node.leaf = some true))
    (by decide +kernel)
  obtain ⟨hroot, hleft, hmid, hright, hzero, hx, hy⟩ := of_decide_eq_true hp
  obtain ⟨n, hn, hleaf⟩ := Option.map_eq_some_iff.mp hx
  obtain ⟨m, hm, hleaf'⟩ := Option.map_eq_some_iff.mp hy
  have hpath : s.heap.Path 7 10 (0 + 1 + 1) (s.heap.weight 11 + (s.heap.weight 10 + 0)) :=
    .cons (List.mem_of_getElem? (Heap.child_eq_some.mp hmid)) (Heap.path_one (Or.inr hright))
  exact ⟨tr, s, _, _, hr, hzero, Heap.path_one (Or.inl hleft), hpath,
    leaves_same_weight (by decide) hr hroot (Heap.path_one (Or.inl hleft)) hpath hn hleaf hm hleaf'⟩

/-- When the sixth insertion has returned, the root has absorbed the node of weight zero. -/
theorem idle_same_depth_split : ∃ tr s d e w v,
    Run (step (.atomic Nat) 3) (init (0 : Nat) 1) tr s ∧ 11 ∈ s.retired
    ∧ s.heap.Path 12 5 d w ∧ s.heap.Path 12 10 e v ∧ d = e := by
  obtain ⟨tr, s, hr, hp⟩ := exists_run_of_replay (step (.atomic Nat) 3) (init (0 : Nat) 1)
    (insertions [9, 9, 9, 9, 10, 24])
    (fun _ s => decide (s.heap.child entry 0 = some 12 ∧ s.heap.child 12 0 = some 5
      ∧ (s.heap.node 12).any (fun n => 10 ∈ n.kids) = true ∧ 11 ∈ s.retired
      ∧ (s.heap.node 5).map Node.leaf = some true ∧ (s.heap.node 10).map Node.leaf = some true
      ∧ ∀ th ∈ s.threads, th.pc = .idle)) (by decide +kernel)
  obtain ⟨hroot, hleft, hright, hret, hx, hy, hidle⟩ := of_decide_eq_true hp
  obtain ⟨n, hn, hleaf⟩ := Option.map_eq_some_iff.mp hx
  obtain ⟨m, hm, hleaf'⟩ := Option.map_eq_some_iff.mp hy
  obtain ⟨k, hk, hkid⟩ := (Option.any_eq_true _ _).mp hright
  have hpath : s.heap.Path 12 10 (0 + 1) (s.heap.weight 10 + 0) :=
    .cons (by rw [Heap.graph_kids hk]; exact of_decide_eq_true hkid) (.nil 10)
  exact ⟨tr, s, _, _, _, _, hr, hret, Heap.path_one (Or.inl hleft), hpath,
    idle_same_depth (by decide) hr hidle hroot (Heap.path_one (Or.inl hleft)) hpath hn hleaf hm
      hleaf'⟩

end Pacer.Abtree
