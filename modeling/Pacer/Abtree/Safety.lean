import Pacer.Abtree.Commit

set_option autoImplicit false

/-! # What holds in every reachable state

One step of a thread keeps the heap labelled, lets the heap grow, and leaves the thread with what
it relies on at its next place (`Move.ok`). So in every reachable state the heap is labelled and
every thread may rely on what it knows (`Run.stateOk`), and no thread ever reads beyond a node,
fails an assertion or runs against a missing pointer (`busy_steps`).
-/

namespace Pacer.Abtree

open Machine RangeGraph Relation

variable {K : Type} [LinearOrder K]

/-! ## Cursors -/

section Cursor

variable {b : Nat} {h : Heap K} {lab : Labels K} {task : Task K} {key : K}

theorem Labelled.child_spec (L : Labelled b h lab) {x ix c : Nat} {n : Node K}
    (hn : h.node x = some n) (hc : h.child x ix = some c) :
    n.leaf = false ∧ ix < n.size ∧ c ∈ n.kids := by
  rw [Heap.child_eq_some, Heap.graph_kids hn] at hc
  have hmem := List.mem_of_getElem? hc
  have hinner := Node.inner_of_kid hmem
  refine ⟨hinner, ?_, hmem⟩
  rw [Node.kids_inner hinner] at hc
  rw [← (L.node_ok x n hn).ptrs_length]
  exact (List.getElem?_eq_some_iff.mp hc).1

/-- Every search goes on from the entry to the root. -/
theorem Labelled.root_next (L : Labelled b h lab) {l : Nat} (hl : h.child entry 0 = some l)
    (key : K) : h.graph.Next key entry l := by
  obtain ⟨e, he, hleaf, -, -⟩ := L.entry_node
  obtain ⟨r, n, hr, hkids, -⟩ := L.exists_root
  obtain rfl : l = r := Option.some.inj (hl.symm.trans hr)
  obtain ⟨c, hc⟩ := L.exists_next he hleaf key
  have hc' := Heap.child_eq_some.mp hc
  have hcl : c = l := by
    have hmem := List.mem_of_getElem? hc'
    rwa [hkids, List.mem_singleton] at hmem
  rw [Next, Heap.graph_dir he, hc', hcl]

/-- A search begins at the root. -/
theorem cursorOk_enter (L : Labelled b h lab) (hact : ∀ f, task = .fix f → f.Active h) {l : Nat}
    (hl : h.child entry 0 = some l) (hkey : SearchKey h key task) :
    CursorOk h lab task key ⟨none, entry, l, 0⟩ := by
  obtain ⟨e, he, hleaf, hew, hsize⟩ := L.entry_node
  obtain ⟨r, n, hr, hkids, hn⟩ := L.exists_root
  obtain rfl : l = r := Option.some.inj (hl.symm.trans hr)
  have hkid : l ∈ h.graph.kids entry := by rw [hkids]; exact List.mem_singleton_self l
  obtain ⟨-, -, hmem⟩ := L.child_spec he hl
  have hrange : key ∈ (lab entry).range := by
    rw [L.entry_range]
    exact Set.mem_univ key
  -- whatever the entry leads to it leads to by its only pointer
  have hway : ∀ v, v ≠ entry → h.graph.Reaches key entry v → h.graph.Reaches key l v := by
    intro v hne hr
    rcases ReflTransGen.cases_head hr with heq | ⟨c, hc, hcv⟩
    · exact absurd heq.symm hne
    · have hck := hc.kid
      rw [Kid, hkids, List.mem_singleton] at hck
      exact hck ▸ hcv
  have hnext := L.root_next hl key
  refine
    { parent := ⟨e, he, hleaf, by rw [hsize]; exact Nat.one_pos⟩
      above := fun g ix hab => by cases hab
      top := fun _ => ?_
      l_lt := L.kid_lt hkid
      range := L.ranged.mem_of_next L.ranged.root_pub hrange hnext
      level := fun hne => absurd rfl hne
      pos := L.kid_pos hkid
      way := fun v hv hm => ?_ }
  · cases task with
    | op op => exact fun hv => by cases hv
    | fix f =>
        intro hv
        cases f with
        | weight v =>
            obtain rfl : v = l := Option.some.inj hv
            obtain ⟨m, hm, hw⟩ := hact _ rfl
            rw [L.root_weight v m hl hm] at hw
            cases hw
        | degree v =>
            obtain rfl : v = l := Option.some.inj hv
            obtain ⟨-, -, -, hne⟩ := hact _ rfl
            exact hne hl
  · cases task with
    | op op => cases hv
    | fix f =>
        obtain rfl : f.viol = v := Option.some.inj hv
        obtain ⟨m, hmn, rfl⟩ := hkey
        refine hway _ ?_ (L.ranged.reaches_of_member hm (L.node_at _ m hmn).search_mem)
        intro hv
        cases f with
        | weight v =>
            obtain ⟨m', hm', hw⟩ := hact _ rfl
            obtain rfl : v = entry := hv
            rw [he] at hm'
            cases hm'
            rw [hew] at hw
            cases hw
        | degree v =>
            obtain ⟨-, -, hne, -⟩ := hact _ rfl
            exact hne hv

/-- A search goes on to a child. -/
theorem CursorOk.descend (L : Labelled b h lab) {c : Cursor} (C : CursorOk h lab task key c)
    {l : Node K} {next : Nat} (hl : h.node c.l = some l) (hviol : task.viol ≠ some c.l)
    (hnext : h.child c.l (l.getChildIndex key) = some next) :
    CursorOk h lab task key ⟨some (c.p, c.ixToL), c.l, next, l.getChildIndex key⟩ := by
  obtain ⟨hinner, hix, hmem⟩ := L.child_spec hl hnext
  have hat := L.node_at c.l l hl
  have hkid : next ∈ h.graph.kids c.l := by rwa [Heap.graph_kids hl]
  have hedge : h.graph.Next key c.l next := by
    rw [Next, Heap.graph_dir hl]
    exact Heap.child_eq_some.mp hnext
  have hne : c.l ≠ entry := fun he => lt_irrefl _ (he ▸ C.pos)
  refine
    { parent := ⟨l, hl, hinner, hix⟩
      above := fun g ix hab => ?_
      top := fun hab => by cases hab
      l_lt := L.kid_lt hkid
      range := L.ranged.mem_of_next C.l_lt C.range hedge
      level := fun _ => hat.kid_level hne next hmem
      pos := lt_trans C.pos (L.kid_pos hkid)
      way := fun v hv hm => ?_ }
  · cases hab
    exact ⟨hne, C.parent⟩
  · rcases ReflTransGen.cases_head (C.way v hv hm) with heq | ⟨d, hd, hdv⟩
    · exact absurd (heq ▸ hv) hviol
    · exact h.graph.next_unique key hedge hd ▸ hdv

end Cursor

/-! ## Attempts -/

section Attempt

variable {b : Nat} {h : Heap K} {lab : Labels K} {w : Attempt K}

/-- One more link is done. -/
theorem Plan.next (P : Plan h w) {k : Link} {todo : List Link} (htodo : w.todo = k :: todo)
    (info : Nat) : Plan h { w with linked := w.linked ++ [(k, info)], todo := todo } := by
  cases P with
  | op hl hleaf hup hlinks =>
      subst htodo
      exact Plan.op hl hleaf hup (by simpa using hlinks)
  | weight habove hp hw hlinks =>
      subst htodo
      exact Plan.weight habove hp hw (by simpa using hlinks)
  | degree habove hlinks =>
      subst htodo
      exact Plan.degree habove (by simpa using hlinks)
  | sibling habove S hinfo hlinks =>
      subst htodo
      exact Plan.sibling habove S (List.mem_append_left _ hinfo) (by simpa using hlinks)

theorem AttemptOk.next (A : AttemptOk h lab w) {k : Link} {todo : List Link}
    (htodo : w.todo = k :: todo) {info : Nat} (hk : Linked h (k, info)) :
    AttemptOk h lab { w with linked := w.linked ++ [(k, info)], todo := todo } where
  active := A.active
  cursor := A.cursor
  plan := A.plan.next htodo info
  linked := fun e he => by
    rcases List.mem_append.mp he with he | he
    · exact A.linked e he
    · rw [List.mem_singleton.mp he]
      exact hk

/-- The plan of a fix of a degree violation that has linked the parent and sees the sibling. -/
theorem AttemptOk.sibling (A : AttemptOk h lab w) (L : Labelled b h lab) (htodo : w.todo = [])
    (hnone : w.sibling = none) {v : Nat} (htask : w.task = .fix (.degree v)) {p l sn : Node K}
    {s : Nat} (hp : h.node w.cur.p = some p) (hl : h.node w.cur.l = some l)
    (hs : h.child w.cur.p (ixToS w.cur.ixToL) = some s) (hsn : h.node s = some sn)
    (hsize : p.size ≠ 1) (hpw : p.weight = true) (hlw : l.weight = true)
    (hsw : sn.weight = true) :
    sn.leaf = l.leaf ∧ AttemptOk h lab
      { w with sibling := some s, todo := siblingLinks w.cur s l.leaf } := by
  obtain ⟨key, hkey, C⟩ := A.cursor
  obtain ⟨hinner, -, hmem⟩ := L.child_spec hp hs
  have hpos := (L.node_ok _ _ hp).inner_size hinner
  have P := A.plan
  cases P with
  | op | weight => cases htask
  | sibling => cases hnone
  | @degree c g ix linked todo habove hlinks =>
      obtain rfl : todo = [] := htodo
      rw [List.append_nil] at hlinks
      have hne := (C.above g ix habove).1
      have hleaf : sn.leaf = l.leaf := by
        have hl' : (lab c.l).level + h.weight c.l = (lab c.p).level := C.level hne
        have hs' : (lab s).level + h.weight s = (lab c.p).level :=
          (L.node_at _ _ hp).kid_level hne s hmem
        rw [Heap.weight_eq (show h.node c.l = some l from hl), if_pos hlw] at hl'
        rw [Heap.weight_eq hsn, if_pos hsw] at hs'
        have heq : (lab s).level = (lab c.l).level := by omega
        rw [Bool.eq_iff_iff, ← L.level_eq_zero_iff hsn, ← L.level_eq_zero_iff hl, heq]
      obtain ⟨⟨k, info⟩, hinfo, hk⟩ := List.mem_map.mp
        (show (⟨c.p, some (c.ixToL, c.l), true⟩ : Link) ∈ linked.map Prod.fst by
          rw [hlinks]; simp [fixPair])
      obtain rfl : k = ⟨c.p, some (c.ixToL, c.l), true⟩ := hk
      have hptr : Since h c.p info fun x => x.node.ptrs[ixToS c.ixToL]? = some s := by
        obtain ⟨x, hx, hle, -⟩ := A.linked _ hinfo
        refine ⟨x, hx, hle, fun _ => ?_⟩
        obtain ⟨x', hx', rfl⟩ := Heap.node_eq_some.mp hp
        obtain rfl := Option.some.inj (hx.symm.trans hx')
        rw [Heap.child_eq_some, Heap.graph_kids hp, Node.kids_inner hinner] at hs
        exact hs
      refine ⟨hleaf, ⟨A.active, A.cursor, ?_, A.linked⟩⟩
      exact Plan.sibling habove ⟨hp, hl, hsn, by omega, hpw, hlw, hsw, hleaf, hptr⟩ hinfo
        (by rw [hlinks])

end Attempt

/-! ## Threads -/

section Thread

variable {b : Nat} {h h' : Heap K} {lab : Labels K} {th th' : Thread K} {rs : List Nat}

theorem Thread.pop_ok (hst : ∀ fr ∈ th.stack, fr.Ok h) : ThreadOk h lab th.pop := by
  cases hs : th.stack with
  | nil =>
      rw [Thread.pop, hs]
      exact ⟨trivial, by rw [hs] at hst; exact hst, fun _ => rfl⟩
  | cons fr stack =>
      rw [hs] at hst
      have hrest : ∀ fr' ∈ stack, fr'.Ok h := fun fr' hm => hst fr' (List.mem_cons_of_mem _ hm)
      have hfr := hst fr List.mem_cons_self
      cases fr with
      | call f =>
          rw [Thread.pop, hs]
          exact ⟨hfr, hrest, fun ho => by simp [Pc.Outer, Pc.pending] at ho⟩
      | loop f =>
          rw [Thread.pop, hs]
          refine ⟨fun f' hf => ?_, hrest, fun ho => by
            simp [Pc.Outer, Pc.pending, Task.pending] at ho⟩
          cases hf
          exact hfr

omit [LinearOrder K] in
/-- What follows a link that is done. -/
theorem Thread.advance_cases (th : Thread K) (w : Attempt K) :
    (th.advance w = { th with pc := .llx w } ∧ w.todo ≠ [])
    ∨ (th.advance w = { th with pc := .sibling w } ∧ w.todo = [] ∧ w.sibling = none
      ∧ ∃ v, w.task = .fix (.degree v))
    ∨ (th.advance w = { th with pc := .scx w } ∧ w.todo = []
      ∧ (w.sibling = none → ∀ v, w.task ≠ .fix (.degree v))) := by
  cases htodo : w.todo with
  | cons k todo =>
      exact Or.inl ⟨by rw [Thread.advance, htodo], List.cons_ne_nil k todo⟩
  | nil =>
      rw [Thread.advance, htodo]
      dsimp only
      split
      · rename_i v htask hsib
        exact Or.inr (Or.inl ⟨rfl, rfl, hsib, v, htask⟩)
      · rename_i hno
        exact Or.inr (Or.inr ⟨rfl, rfl, fun hsib v htask => hno v htask hsib⟩)

theorem ThreadOk.advance (T : ThreadOk h lab th) {w : Attempt K} (A : AttemptOk h lab w)
    (hpend : w.task.pending.isSome = true → th.pc.Outer) : ThreadOk h lab (th.advance w) := by
  have houter : ∀ pc : Pc K, pc.pending = w.task.pending → pc ≠ .idle → pc ≠ .ret → pc.Outer →
      th.stack = [] := by
    rintro pc hpc hidle hret (ho | ho | ho)
    · exact T.outer (hpend (hpc ▸ ho))
    · exact absurd ho hidle
    · exact absurd ho hret
  rcases th.advance_cases w with ⟨heq, htodo⟩ | ⟨heq, hrest⟩ | ⟨heq, hrest⟩ <;> rw [heq]
  · exact ⟨⟨A, htodo⟩, T.stack, houter (.llx w) rfl (by simp) (by simp)⟩
  · exact ⟨⟨A, hrest⟩, T.stack, houter (.sibling w) rfl (by simp) (by simp)⟩
  · exact ⟨⟨A, hrest⟩, T.stack, houter (.scx w) rfl (by simp) (by simp)⟩

omit [LinearOrder K] in
theorem mem_weightCall {x : Nat} {n : Node K} {fr : Frame} (hfr : fr ∈ weightCall x n) :
    fr = .call (.weight x) ∧ n.weight = false := by
  unfold weightCall at hfr
  split at hfr
  · cases hfr
  · rename_i hw
    exact ⟨List.mem_singleton.mp hfr, by simpa using hw⟩

/-- The calls that are made when a loop is left are in order. -/
theorem Returns.ok (T : ThreadOk h lab th) {frames : List Frame}
    (R : Returns h th.pc frames) : ∀ fr ∈ frames, fr.Ok h := by
  have hpc := T.pc
  generalize th.pc = pc at R hpc
  have hcall : ∀ x n fr, h.node x = some n → fr ∈ weightCall x n → fr.Ok h := by
    intro x n fr hn hfr
    rw [(mem_weightCall hfr).1]
    exact Heap.node_lt hn
  cases R with
  | lost | settled | gone | retired => exact fun fr hfr => by cases hfr
  | parent hp hw =>
      intro fr hfr
      simp only [List.mem_cons, List.not_mem_nil, or_false] at hfr
      rcases hfr with rfl | rfl
      · exact Heap.node_lt hp
      · exact hpc.1 _ rfl
  | single hp hl hsize =>
      intro fr hfr
      rcases List.mem_append.mp hfr with hfr | hfr
      · exact hcall _ _ _ hp hfr
      · exact hcall _ _ _ hl hfr
  | heavy hp hl hs hsn htask =>
      intro fr hfr
      simp only [List.mem_append, List.mem_singleton] at hfr
      rcases hfr with ((hfr | hfr) | hfr) | rfl
      · exact hcall _ _ _ hp hfr
      · exact hcall _ _ _ hl hfr
      · exact hcall _ _ _ hsn hfr
      · exact hpc.1.active _ htask

/-- **One step of a thread.** -/
theorem Move.ok (hb : 3 ≤ b) (L : Labelled b h lab) (T : ThreadOk h lab th)
    (M : Move b h th h' th' rs) :
    ∃ lab', Labelled b h' lab' ∧ Grows h lab h' lab' ∧ ThreadOk h' lab' th' := by
  have hpc := T.pc
  have houter := T.outer
  cases M with
  | begin he =>
      rw [he] at houter
      exact ⟨lab, L, Grows.refl h lab, (fun f hf => by cases hf), T.stack,
        fun _ => houter (Or.inl rfl)⟩
  | @enter task l key he hl hkey =>
      rw [he] at hpc houter
      refine ⟨lab, L, Grows.refl h lab, ⟨hpc, hkey, cursorOk_enter L hpc hl hkey⟩, T.stack, ?_⟩
      intro ho
      exact houter (by simpa [Pc.Outer, Pc.pending] using ho)
  | descend he hl hleaf hviol hnext =>
      rw [he] at hpc houter
      obtain ⟨hact, hkey, C⟩ := hpc
      refine ⟨lab, L, Grows.refl h lab, ⟨hact, hkey, C.descend L hl hviol hnext⟩, T.stack, ?_⟩
      intro ho
      exact houter (by simpa [Pc.Outer, Pc.pending] using ho)
  | answer => exact ⟨lab, L, Grows.refl h lab, Thread.pop_ok T.stack⟩
  | aim he hl hleaf hup =>
      rw [he] at hpc houter
      obtain ⟨hact, hkey, C⟩ := hpc
      refine ⟨lab, L, Grows.refl h lab, ⟨⟨hact, ⟨_, hkey, C⟩, Plan.op hl hleaf hup rfl, ?_⟩, ?_⟩,
        T.stack, fun _ => houter (Or.inl rfl)⟩
      · exact fun e he => by cases he
      · exact List.cons_ne_nil _ _
  | @aimWeight key c g ix p l he habove hp hw hl =>
      rw [he] at hpc houter
      obtain ⟨hact, hkey, C⟩ := hpc
      have hleaf : l.leaf = false := by
        obtain ⟨n, hn, hnw⟩ := hact _ rfl
        obtain rfl := Option.some.inj (hl.symm.trans hn)
        cases hlf : l.leaf with
        | false => rfl
        | true => rw [(L.node_ok _ _ hl).leaf_weight hlf] at hnw; cases hnw
      refine ⟨lab, L, Grows.refl h lab, ⟨⟨hact, ⟨_, hkey, C⟩, Plan.weight habove hp hw ?_, ?_⟩, ?_⟩,
        T.stack, fun ho => by simp [Pc.Outer, Pc.pending, Task.pending] at ho⟩
      · simp [Node.isLeaf, hleaf, fixPair]
      · exact fun e he => by cases he
      · exact List.cons_ne_nil _ _
  | aimDegree he habove =>
      rw [he] at hpc houter
      obtain ⟨hact, hkey, C⟩ := hpc
      refine ⟨lab, L, Grows.refl h lab, ⟨⟨hact, ⟨_, hkey, C⟩, Plan.degree habove rfl, ?_⟩, ?_⟩,
        T.stack, fun ho => by simp [Pc.Outer, Pc.pending, Task.pending] at ho⟩
      · exact fun e he => by cases he
      · exact List.cons_ne_nil _ _
  | look he hact =>
      exact ⟨lab, L, Grows.refl h lab, hact, T.stack, fun ho => by
        simp [Pc.Outer, Pc.pending] at ho⟩
  | present he =>
      rw [he] at hpc
      exact ⟨lab, L, Grows.refl h lab, fun f hf => by cases hf; exact hpc, T.stack, fun ho => by
        simp [Pc.Outer, Pc.pending, Task.pending] at ho⟩
  | link he htodo hc hmark hptr =>
      rw [he] at hpc houter
      refine ⟨lab, L, Grows.refl h lab,
        ⟨hpc.1, _, _, htodo, hptr, _, hc, le_refl _, fun _ => hmark⟩, T.stack, fun ho => ?_⟩
      exact houter (by simpa [Pc.Outer, Pc.pending] using ho)
  | @linked w k todo c he htodo hc hmark hptr =>
      rw [he] at hpc
      refine ⟨lab, L, Grows.refl h lab, T.advance (hpc.1.next htodo ?_) fun hp => ?_⟩
      · exact ⟨c, hc, le_refl _, fun _ => ⟨hmark, fun ix y hk => by rw [hptr] at hk; cases hk⟩⟩
      · rw [he]
        exact Or.inl hp
  | @checked w info ix next k todo he htodo hptr hnext =>
      rw [he] at hpc
      obtain ⟨A, k', todo', htodo', -, hs⟩ := hpc
      rw [htodo] at htodo'
      obtain ⟨rfl, rfl⟩ := List.cons.inj htodo'
      refine ⟨lab, L, Grows.refl h lab, T.advance (A.next htodo ?_) fun hp => ?_⟩
      · obtain ⟨c, hc, hle, hmark⟩ := hs
        refine ⟨c, hc, hle, fun hi => ⟨hmark hi, fun ix' y hk => ?_⟩⟩
        rw [hptr] at hk
        cases hk
        have hn : h.node k.node = some c.node := Heap.node_eq_some.mpr ⟨c, hc, rfl⟩
        obtain ⟨hinner, -, -⟩ := L.child_spec hn hnext
        rwa [Heap.child_eq_some, Heap.graph_kids hn, Node.kids_inner hinner] at hnext
      · rw [he]
        exact Or.inl hp
  | @retry w he =>
      have hA : AttemptOk h lab w ∧ (w.task.pending.isSome = true → th.pc.Outer) := by
        rcases he with he | ⟨info, he⟩ | he
        · rw [he] at hpc ⊢
          exact ⟨hpc.1, fun hp => Or.inl hp⟩
        · rw [he] at hpc ⊢
          exact ⟨hpc.1, fun hp => Or.inl hp⟩
        · rw [he] at hpc ⊢
          exact ⟨hpc.1, fun hp => Or.inl hp⟩
      refine ⟨lab, L, Grows.refl h lab, ?_⟩
      cases ht : w.task with
      | op op => exact ⟨trivial, T.stack, fun _ => houter (hA.2 (by rw [ht]; rfl))⟩
      | fix f =>
          exact ⟨fun f' hf => by cases hf; exact hA.1.active f ht, T.stack, fun ho => by
            simp [Thread.retry, Pc.Outer, Pc.pending, Task.pending] at ho⟩
  | @sibling w p l sn s he hp hl hs hsn hsize hpw hlw hsw =>
      rw [he] at hpc
      obtain ⟨A, htodo, hnone, v, htask⟩ := hpc
      obtain ⟨hleaf, A'⟩ := A.sibling L htodo hnone htask hp hl hs hsn hsize hpw hlw hsw
      have heq : (if w.cur.ixToL < ixToS w.cur.ixToL then
            if l.isLeaf then [] else [⟨w.cur.l, none, true⟩, ⟨s, none, true⟩]
          else if sn.isLeaf then [] else [⟨s, none, true⟩, ⟨w.cur.l, none, true⟩])
          = siblingLinks w.cur s l.leaf := by
        rw [Node.isLeaf, Node.isLeaf, hleaf, siblingLinks]
        split <;> split <;> rfl
      rw [heq]
      refine ⟨lab, L, Grows.refl h lab, T.advance A' fun hp => ?_⟩
      rw [he]
      exact Or.inl hp
  | @commit w u k he hu X =>
      rw [he] at hpc
      obtain ⟨A, htodo, hsib⟩ := hpc
      obtain ⟨old, top, labs, C, heq⟩ := A.committed hb L htodo hsib hu X
      rw [heq]
      have G := C.fits.grows L
      rw [C.new_eq]
      refine ⟨lab.extend h labs, C.fits.labelled L, G, trivial, fun fr hfr => ?_, fun ho => by
        simp [Pc.Outer, Pc.pending] at ho⟩
      rcases List.mem_append.mp hfr with hfr | hfr
      · obtain ⟨f, hf, rfl⟩ := List.mem_map.mp hfr
        obtain ⟨i, hi, hv⟩ := C.calls f hf
        rw [Frame.Ok, hv, Heap.change_length]
        omega
      · exact (T.stack fr hfr).mono G
  | retire he =>
      exact ⟨lab, L, Grows.refl h lab, trivial, T.stack, fun ho => by
        simp [Pc.Outer, Pc.pending] at ho⟩
  | returns R =>
      refine ⟨lab, L, Grows.refl h lab, Thread.pop_ok fun fr hfr => ?_⟩
      rcases List.mem_append.mp hfr with hfr | hfr
      · exact Returns.ok T R fr hfr
      · exact T.stack fr hfr

/-! ## No step is undefined -/

end Thread

/-! ## The machine -/

/-- What holds in every reachable state. -/
structure StateOk (b : Nat) (s : State K) (lab : Labels K) : Prop where
  heap : Labelled b s.heap lab
  threads : ∀ th ∈ s.threads, ThreadOk s.heap lab th

section Machine

variable {P : Provider K} {b : Nat} {s s' : State K} {lab : Labels K} {a : Action K P.Env}

theorem stateOk_init (hb : 1 ≤ b) (anyKey : K) (numProcesses : Nat) :
    StateOk b (init anyKey numProcesses) (initLabels K) where
  heap := labelled_init hb anyKey numProcesses
  threads := fun th hth => by
    rw [(List.mem_replicate.mp hth).2]
    exact ⟨trivial, (fun fr hfr => by cases hfr), fun _ => rfl⟩

/-- **One step of the machine.** -/
theorem StateOk.step (hb : 3 ≤ b) (S : StateOk b s lab) (hs : Abtree.step P b s a = some s') :
    ∃ lab', StateOk b s' lab' ∧ Grows s.heap lab s'.heap lab' := by
  rcases step_cases hs with ⟨t, op, th, rfl, hth, hpc, rfl⟩
    | ⟨t, e, th, th', h', rs, rfl, hth, M, rfl⟩ | ⟨t, th, rfl, hth, hpc, rfl⟩
  · have T := S.threads th (List.mem_of_getElem? hth)
    refine ⟨lab, ⟨S.heap, fun u hu => ?_⟩, Grows.refl _ _⟩
    rcases List.mem_or_eq_of_mem_set hu with hu | rfl
    · exact S.threads u hu
    · exact ⟨trivial, T.stack, fun _ => T.outer (Or.inr (Or.inl hpc))⟩
  · obtain ⟨lab', L', G, T'⟩ := M.ok hb S.heap (S.threads th (List.mem_of_getElem? hth))
    refine ⟨lab', ⟨L', fun u hu => ?_⟩, G⟩
    rcases List.mem_or_eq_of_mem_set hu with hu | rfl
    · exact (S.threads u hu).mono S.heap G
    · exact T'
  · have T := S.threads th (List.mem_of_getElem? hth)
    refine ⟨lab, ⟨S.heap, fun u hu => ?_⟩, Grows.refl _ _⟩
    rcases List.mem_or_eq_of_mem_set hu with hu | rfl
    · exact S.threads u hu
    · exact ⟨trivial, T.stack, fun _ => T.outer (Or.inr (Or.inr hpc))⟩

/-- The invariant rule for what rests on the invariant of the machine. -/
theorem StateOk.run_invariant (hb : 3 ≤ b) {s₀ : State K}
    {tr : List (Trans (State K) (Action K P.Env))} (S₀ : StateOk b s₀ lab)
    (hr : Run (Abtree.step P b) s₀ tr s) {I : State K → Prop} (h₀ : I s₀)
    (hstep : ∀ s a s' lab, StateOk b s lab → I s → Abtree.step P b s a = some s' → I s') :
    (∃ lab, StateOk b s lab) ∧ I s := by
  refine hr.invariant (I := fun s => (∃ lab, StateOk b s lab) ∧ I s) ⟨⟨_, S₀⟩, h₀⟩ ?_
  rintro s a s' ⟨⟨lab, S⟩, hI⟩ hs
  obtain ⟨lab', S', -⟩ := S.step hb hs
  exact ⟨⟨lab', S'⟩, hstep s a s' lab S hI hs⟩

/-- **The invariant of the machine.** -/
theorem exists_stateOk (hb : 3 ≤ b) {anyKey : K} {numProcesses : Nat}
    {tr : List (Trans (State K) (Action K P.Env))}
    (hr : Run (step P b) (init anyKey numProcesses) tr s) : ∃ lab, StateOk b s lab :=
  ((stateOk_init (by omega) anyKey numProcesses).run_invariant hb hr (I := fun _ => True) trivial
    fun _ _ _ _ _ _ _ => trivial).1

end Machine

/-- Thread `t` carries out an operation in `n` steps, and none of its LLXs and SCXs is disturbed. -/
def alone (t : Nat) (op : Op K) (n : Nat) : List (Action K Bool) :=
  .call t op :: (List.replicate n (.run t true) ++ [.ret t])

/-- Insertions of `0`, `1`, … by thread `0`, which takes so many steps for each. -/
def insertions (steps : List Nat) : List (Action Nat Bool) :=
  (steps.zipIdx.map fun p => alone 0 (.insert p.2 p.2 true) p.1).flatten

/-- Five insertions, and the sixth up to its SCX, which splits a leaf below the root. -/
def splitting : List (Action Nat Bool) :=
  insertions [9, 9, 9, 9, 10] ++ .call 0 (.insert 5 5 true) :: List.replicate 7 (.run 0 true)

end Pacer.Abtree
