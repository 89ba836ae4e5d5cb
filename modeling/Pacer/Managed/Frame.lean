import Pacer.Managed.Model

set_option autoImplicit false

/-! # What a step of the tree does not look at

Two heaps that agree except on the nodes `B` (`Agree`) are the same to a thread that can get hold
of no node of `B`, when no SCX under way is linked to one either: its step in one of them is its
step in the other (`instr_agree`).
-/

namespace Pacer.Managed

open Machine Abtree RangeGraph Relation

variable {K : Type} [LinearOrder K]

/-- The heaps have the same nodes, and outside `B` these are equal. -/
structure Agree (B : Set Nat) (h h' : Heap K) : Prop where
  length : h'.length = h.length
  cell : ∀ x, x ∉ B → h'[x]? = h[x]?

namespace Agree

variable {B B' : Set Nat} {h h' : Heap K} {x : Nat}

section

omit [LinearOrder K]

theorem refl (B : Set Nat) (h : Heap K) : Agree B h h := ⟨rfl, fun _ _ => rfl⟩

theorem mono (A : Agree B h h') (hB : B ⊆ B') : Agree B' h h' :=
  ⟨A.length, fun x hx => A.cell x fun hxB => hx (hB hxB)⟩

theorem set (A : Agree B h h') (hx : x ∈ B) (c : Cell K) : Agree B h (h'.set x c) where
  length := by rw [List.length_set, A.length]
  cell := fun y hy => by
    have hne : x ≠ y := fun hxy => hy (hxy ▸ hx)
    rw [List.getElem?_set_ne hne, A.cell y hy]

theorem node (A : Agree B h h') (hx : x ∉ B) : h'.node x = h.node x := by
  rw [Heap.node, Heap.node, A.cell x hx]

theorem child (A : Agree B h h') (hx : x ∉ B) (ix : Nat) : h'.child x ix = h.child x ix := by
  rw [Heap.child, Heap.child, A.node hx]

/-- The same SCX, and the same nodes published. -/
theorem commit (A : Agree B h h') (r : Request) (news : List (Node K)) :
    Agree B (h.commit r ++ news.map Cell.fresh) (h'.commit r ++ news.map Cell.fresh) where
  length := by simp [Heap.commit, A.length]
  cell := by
    intro x hx
    have hcell : (h'.commit r)[x]? = (h.commit r)[x]? := by
      rw [Heap.commit_getElem?, Heap.commit_getElem?, A.cell x hx]
    have hlength : (h'.commit r).length = (h.commit r).length := by
      simp [Heap.commit, A.length]
    rw [List.getElem?_append, List.getElem?_append, hcell, hlength]

/-- An LLX answers the same. -/
theorem llx {P : Provider K} (hP : P.Confined) (A : Agree B h h') (e : P.Env) {others : List Nat}
    (hothers : ∀ y ∈ others, y ∉ B) (hx : x ∉ B) : P.llx e others h' x = P.llx e others h x := by
  apply hP.llx
  rintro y (rfl | hy)
  · exact A.cell y hx
  · exact A.cell y (hothers y hy)

/-- An SCX fails in both, or it succeeds in both and changes them alike. -/
theorem scxExecute {P : Provider K} (hP : P.Confined) (A : Agree B h h') (e : P.Env)
    {others : List Nat} (hothers : ∀ y ∈ others, y ∉ B) {r : Request} (hg : r.g ∉ B)
    (hnodes : ∀ y ∈ r.nodes, y ∉ B) (news : List (Node K)) :
    (P.scxExecute e others h' r = none ∧ P.scxExecute e others h r = none) ∨
      ∃ m m', P.scxExecute e others h' r = some m' ∧ P.scxExecute e others h r = some m
        ∧ Agree B (m ++ news.map Cell.fresh) (m' ++ news.map Cell.fresh) := by
  have hsome : (P.scxExecute e others h' r).isSome = (P.scxExecute e others h r).isSome := by
    apply hP.scxExecute
    rintro y (rfl | hy | hy)
    · exact A.cell _ hg
    · exact A.cell y (hnodes y hy)
    · exact A.cell y (hothers y hy)
  cases hm : P.scxExecute e others h r with
  | none =>
      rw [hm, Option.isSome_none, Option.isSome_eq_false_iff, Option.isNone_iff_eq_none] at hsome
      exact Or.inl ⟨hsome, rfl⟩
  | some m =>
      rw [hm, Option.isSome_some] at hsome
      obtain ⟨m', hm'⟩ := Option.isSome_iff_exists.mp hsome
      refine Or.inr ⟨m, m', hm', rfl, ?_⟩
      rw [(P.scx_committed hm').eq_commit, (P.scx_committed hm).eq_commit]
      exact A.commit r news

end

theorem kids (A : Agree B h h') (hx : x ∉ B) : h'.graph.kids x = h.graph.kids x := by
  show ((h'.node x).map Node.kids).getD [] = ((h.node x).map Node.kids).getD []
  rw [A.node hx]

/-- The trees are the same when `B` has nothing of the tree. -/
theorem member (A : Agree B h h') (hB : ∀ y, h.Member y → y ∉ B) (hx : h'.Member x) :
    h.Member x := by
  induction hx with
  | refl => exact ReflTransGen.refl
  | @tail y z _ hz ih => exact ih.tail (by rwa [Kid, A.kids (hB y ih)] at hz)

theorem leafOf (A : Agree B h h') (hB : ∀ y, h.Member y → y ∉ B) (key : K) (fuel : Nat)
    (hx : h.Member x) : h'.leafOf key fuel x = h.leafOf key fuel x := by
  induction fuel generalizing x with
  | zero => rfl
  | succ fuel ih =>
      rw [Heap.leafOf, Heap.leafOf, A.node (hB x hx)]
      cases hn : h.node x with
      | none => rfl
      | some n =>
          cases hl : n.leaf with
          | true => simp [Node.isLeaf, hl]
          | false =>
              simp only [Node.isLeaf, hl, Bool.false_eq_true, if_false]
              cases hc : n.ptrs[n.getChildIndex key]? with
              | none => rfl
              | some c =>
                  refine ih (hx.tail ?_)
                  rw [Kid, Heap.graph_kids hn, Node.kids_inner hl]
                  exact List.mem_of_getElem? hc

theorem content (A : Agree B h h') (hB : ∀ y, h.Member y → y ∉ B) : h'.content = h.content := by
  funext key
  rw [Heap.content, Heap.content, A.length, A.leafOf hB key _ ReflTransGen.refl]

end Agree

section Instr

variable {B : Set Nat} {h h' : Heap K} {th : Thread K}

theorem arrived_agree (A : Agree B h h') (th : Thread K) (task : Abtree.Task K) {c : Cursor}
    (hp : c.p ∉ B) (l : Node K) : arrived h' th task c l = arrived h th task c l := by
  cases task with
  | op op => cases op <;> rfl
  | fix f =>
      cases f with
      | weight v => simp only [arrived, A.node hp]
      | degree v => rfl

omit [LinearOrder K] in
theorem lookAtSibling_agree (A : Agree B h h') (th : Thread K) {w : Attempt K}
    (hp : w.cur.p ∉ B) (hl : w.cur.l ∉ B)
    (hs : ∀ s, h.child w.cur.p (ixToS w.cur.ixToL) = some s → s ∉ B) :
    lookAtSibling h' th w = lookAtSibling h th w := by
  simp only [lookAtSibling, A.node hp, A.node hl, A.child hp]
  cases hsib : h.child w.cur.p (ixToS w.cur.ixToL) with
  | none => rfl
  | some s => simp only [Option.bind_eq_bind, Option.bind_some, A.node (hs s hsib)]

theorem build_agree (A : Agree B h h') (b : Nat) {w : Attempt K} (hp : w.cur.p ∉ B)
    (hl : w.cur.l ∉ B) (hs : ∀ s, w.sibling = some s → s ∉ B) : build b h' w = build b h w := by
  simp only [build, A.node hp, A.node hl, A.length]
  cases hsib : w.sibling with
  | none => rfl
  | some s => simp only [Option.bind_eq_bind, Option.bind_some, A.node (hs s hsib)]

omit [LinearOrder K] in
theorem buildSiblings_g {b : Nat} {c : Cursor} {g ix x : Nat} {p left right : Node K}
    {i j : Nat} {key : K} {fresh : Nat} {u : Update K}
    (hu : buildSiblings b c g ix x p left right i j key fresh = some u) : u.g = g := by
  simp only [buildSiblings, Option.bind_eq_bind] at hu
  split at hu
  · cases hu
  · split at hu
    · obtain ⟨n, -, hu⟩ := Option.bind_eq_some_iff.mp hu
      split at hu
      · cases hu
        rfl
      · split at hu
        · cases hu
        · cases hu
          rfl
    · obtain ⟨n, -, hu⟩ := Option.bind_eq_some_iff.mp hu
      cases hu
      rfl

/-- The pointer that an SCX swings is one of a node that the search has passed. -/
theorem build_g {b : Nat} {w : Attempt K} {u : Update K} (hu : build b h w = some u) :
    u.g ∈ w.cur.nodes := by
  have hp : w.cur.p ∈ w.cur.nodes := w.cur.p_mem
  have habove : ∀ a, w.cur.above = some a → a.1 ∈ w.cur.nodes := fun a ha => Cursor.above_mem ha
  simp only [build, Option.bind_eq_bind, Option.bind_eq_some_iff] at hu
  obtain ⟨l, -, hu⟩ := hu
  split at hu
  · cases hu
  · simp only [buildInsert, Option.bind_eq_bind] at hu
    split at hu
    · obtain ⟨v, -, hu⟩ := Option.bind_eq_some_iff.mp hu
      cases hu
      exact hp
    · split at hu
      · cases hu
        exact hp
      · obtain ⟨v, -, hu⟩ := Option.bind_eq_some_iff.mp hu
        cases hu
        exact hp
  · simp only [buildErase, Option.bind_eq_bind, Option.bind_eq_some_iff] at hu
    obtain ⟨n, -, v, -, hu⟩ := hu
    cases hu
    exact hp
  · simp only [buildWeight, Option.bind_eq_bind, Option.bind_eq_some_iff] at hu
    obtain ⟨p, -, a, ha, hu⟩ := hu
    split at hu
    · obtain ⟨n, -, hu⟩ := Option.bind_eq_some_iff.mp hu
      cases hu
      exact habove a ha
    · obtain ⟨n, -, hu⟩ := Option.bind_eq_some_iff.mp hu
      cases hu
      exact habove a ha
  · simp only [buildDegree, Option.bind_eq_bind, Option.bind_eq_some_iff] at hu
    obtain ⟨p, -, x, -, s, -, a, ha, hu⟩ := hu
    split at hu <;> exact buildSiblings_g hu ▸ habove a ha

/-- **A step sees only what the thread can get hold of**, and what it may help with. -/
theorem instr_agree {P : Provider K} (hP : P.Confined) (A : Agree B h h')
    (hclear : ∀ x, Obtained h th x → x ∉ B) (b : Nat) {others : List Nat}
    (hothers : ∀ x ∈ others, x ∉ B) (e : P.Env) {k' : Heap K} {th' : Thread K} {rs : List Nat}
    (hs : instr P b others h' th e = some (k', th', rs)) :
    ∃ k, instr P b others h th e = some (k, th', rs) ∧ Agree B k k' := by
  have hheld : ∀ {pc : Abtree.Pc K} {x : Nat}, th.pc = pc → x ∈ pc.held → x ∉ B := by
    rintro pc x rfl hx
    exact hclear x (.of_pc hx)
  have hentry : entry ∉ B := hclear entry .entry
  have hkid : ∀ {pc : Abtree.Pc K} {x ix c : Nat}, th.pc = pc → x ∈ pc.held →
      h.child x ix = some c → c ∉ B := by
    rintro pc x ix c rfl hx hc
    exact hclear c (.child hx hc)
  -- a step that leaves the heap alone
  have hsame : ∀ r : Thread K × List Nat, some (h', r) = some (k', th', rs) →
      ∃ k, some (h, r) = some (k, th', rs) ∧ Agree B k k' := by
    intro r hr
    cases hr
    exact ⟨h, rfl, A⟩
  have hchild := A.child hentry 0
  have hllx : ∀ {x : Nat}, x ∉ B → P.llx e others h' x = P.llx e others h x :=
    A.llx hP e hothers
  cases he : th.pc with
  | idle | ret => simp [instr, he] at hs
  | begin op =>
      simp only [instr, he] at hs ⊢
      exact hsame _ hs
  | enter task =>
      cases hl : h.child entry 0 with
      | none => simp [instr, he, hchild, hl] at hs
      | some l =>
          cases task with
          | op op =>
              simp only [instr, he, hchild, hl, Option.bind_eq_bind, Option.bind_some] at hs ⊢
              exact hsame _ hs
          | fix f =>
              have hf := A.node (hheld he (List.mem_singleton_self f.viol))
              cases hn : h.node f.viol with
              | none => simp [instr, he, hchild, hl, hf, hn] at hs
              | some n =>
                  simp only [instr, he, hchild, hl, hf, hn, Option.bind_eq_bind, Option.bind_some,
                    Option.map_some] at hs ⊢
                  exact hsame _ hs
  | search task key c =>
      have hc : ∀ x ∈ c.nodes, x ∉ B := fun x hx => hheld he (List.mem_append_right _ hx)
      have hp := hc c.p c.p_mem
      have hl := hc c.l c.l_mem
      have hnode := A.node hl
      have harrived := arrived_agree A th task hp
      have hnext := A.child hl
      cases hn : h.node c.l with
      | none => simp [instr, he, hnode, hn] at hs
      | some l =>
          simp only [instr, he, hnode, hn, harrived, hnext, Option.bind_eq_bind,
            Option.bind_some] at hs ⊢
          split at hs
          · rename_i hend
            rw [if_pos hend]
            cases ha : arrived h th task c l with
            | none => simp [ha] at hs
            | some r =>
                rw [ha] at hs
                exact hsame _ hs
          · rename_i hend
            rw [if_neg hend]
            cases hx : h.child c.l (l.getChildIndex key) with
            | none => simp [hx] at hs
            | some next =>
                rw [hx] at hs
                exact hsame _ hs
  | check f =>
      have hf := A.node (hheld he (List.mem_singleton_self f.viol))
      cases hn : h.node f.viol with
      | none => cases f <;> simp_all [instr, Fix.viol]
      | some n =>
          cases f with
          | weight v =>
              simp only [Fix.viol] at hf hn
              simp only [instr, he, hf, hn, Option.bind_eq_bind, Option.bind_some] at hs ⊢
              exact hsame _ hs
          | degree v =>
              simp only [Fix.viol] at hf hn
              simp only [instr, he, hf, hn, hchild, Option.bind_eq_bind, Option.bind_some] at hs ⊢
              split at hs
              · rename_i hstop
                rw [if_pos hstop]
                exact hsame _ hs
              · rename_i hstop
                rw [if_neg hstop]
                cases hl : h.child entry 0 with
                | none => simp [hl] at hs
                | some root =>
                    rw [hl] at hs
                    exact hsame _ hs
  | inspect f =>
      have hmem := hheld he (List.mem_singleton_self f.viol)
      have hf := A.node hmem
      cases hr : h.node f.viol with
      | none => simp [instr, he, hf, hr] at hs
      | some n =>
          simp only [instr, he, hf, hr, hllx hmem, Option.bind_eq_bind, Option.bind_some] at hs ⊢
          exact hsame _ hs
  | llx w =>
      cases htodo : w.todo with
      | nil => simp [instr, he, htodo] at hs
      | cons k todo =>
          have hk : k.node ∈ (Abtree.Pc.llx w).held :=
            Attempt.todo_mem (htodo ▸ List.mem_cons_self)
          have hx := A.node (hheld he hk)
          cases hr : h.node k.node with
          | none => simp [instr, he, htodo, hx, hr] at hs
          | some n =>
              simp only [instr, he, htodo, hx, hr, hllx (hheld he hk), Option.bind_eq_bind,
                Option.bind_some] at hs ⊢
              cases hans : P.llx e others h k.node with
              | fail | finalized | handle =>
                  simp only [hans] at hs ⊢
                  exact hsame _ hs
  | recheck w info =>
      cases htodo : w.todo with
      | nil => simp [instr, he, htodo] at hs
      | cons k todo =>
          have hk : k.node ∈ (Abtree.Pc.recheck w info).held :=
            Attempt.todo_mem (htodo ▸ List.mem_cons_self)
          cases hp : k.pointer with
          | none => simp [instr, he, htodo, hp] at hs
          | some a =>
              have hx := A.child (hheld he hk) a.1
              cases hc : h.child k.node a.1 with
              | none => simp [instr, he, htodo, hp, hx, hc] at hs
              | some next =>
                  simp only [instr, he, htodo, hp, hx, hc, Option.bind_eq_bind,
                    Option.bind_some] at hs ⊢
                  exact hsame _ hs
  | sibling w =>
      have hp : w.cur.p ∈ (Abtree.Pc.sibling w).held := Attempt.cur_mem w.cur.p_mem
      have hl : w.cur.l ∈ (Abtree.Pc.sibling w).held := Attempt.cur_mem w.cur.l_mem
      have hlook := lookAtSibling_agree A th (hheld he hp) (hheld he hl)
        fun s hs => hkid he hp hs
      cases hr : lookAtSibling h th w with
      | none => simp [instr, he, hlook, hr] at hs
      | some r =>
          simp only [instr, he, hlook, hr, Option.bind_eq_bind, Option.bind_some] at hs ⊢
          exact hsame _ hs
  | scx w =>
      have hmem : ∀ {x : Nat}, x ∈ w.held → x ∉ B := fun hx => hheld he hx
      have hc : ∀ x ∈ w.cur.nodes, x ∉ B := fun x hx => hmem (Attempt.cur_mem hx)
      have hbuild := build_agree A b (hc _ w.cur.p_mem) (hc _ w.cur.l_mem)
        fun s hs => hmem (Attempt.sibling_mem hs)
      cases hu : build b h w with
      | none => simp [instr, he, hbuild, hu] at hs
      | some u =>
          have hnodes : ∀ x ∈ (w.request u).nodes, x ∉ B := fun x hx =>
            hmem (Attempt.linked_mem (w.request_nodes u ▸ hx))
          simp only [instr, he, hbuild, hu, Option.bind_eq_bind, Option.bind_some] at hs ⊢
          rcases A.scxExecute hP e hothers (r := w.request u) (hc _ (build_g hu)) hnodes u.news
            with ⟨hx, hm⟩ | ⟨m, m', hx, hm, hagree⟩
          · simp only [hx, hm] at hs ⊢
            exact hsame _ hs
          · simp only [hx, hm, Option.some.injEq, Prod.mk.injEq] at hs ⊢
            obtain ⟨rfl, rfl, rfl⟩ := hs
            exact ⟨_, ⟨rfl, rfl, rfl⟩, hagree⟩
  | retire nodes => cases nodes <;> (simp only [instr, he] at hs ⊢; exact hsame _ hs)

end Instr

end Pacer.Managed
