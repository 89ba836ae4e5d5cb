import Pacer.Abtree.Retire

set_option autoImplicit false

/-! # What a thread can get hold of

A thread gets the addresses it uses from the entry, from the pointers of nodes it has got hold of,
and from its own allocations (`Move.held`). The nodes that are not in the tree at some moment form
a set that no pointer from outside leads into, then or later (`Avoids`). So a thread that gets a
guard never touches a node that was removed before: `held_after_guard` is what the tree promises
to the record manager, which may free a node once all guards from before its retirement are gone.
-/

namespace Pacer.Abtree

open Machine RangeGraph Relation

variable {K : Type} [LinearOrder K]

/-! ## The addresses a thread holds -/

def Cursor.nodes (c : Cursor) : List Nat := c.p :: c.l :: (c.above.map Prod.fst).toList

def Attempt.held (w : Attempt K) : List Nat :=
  w.task.viol.toList ++ w.cur.nodes ++ w.sibling.toList ++ w.nodes ++ w.todo.map Link.node

def Pc.held : Pc K → List Nat
  | .enter task => task.viol.toList
  | .search task _ c => task.viol.toList ++ c.nodes
  | .check f | .inspect f => [f.viol]
  | .llx w | .recheck w _ | .sibling w | .scx w => w.held
  | .retire nodes => nodes
  | .idle | .begin _ | .ret => []

/-- All addresses in the variables of a thread. -/
def Thread.held (th : Thread K) : List Nat :=
  th.pc.held ++ th.stack.map fun fr => fr.fix.viol

section Held

variable {b : Nat} {h h' : Heap K} {lab lab' : Labels K} {th th' : Thread K} {rs : List Nat}

/-- Where an address that a thread holds after a step comes from. -/
def Obtained (h : Heap K) (th : Thread K) (x : Nat) : Prop :=
  x ∈ th.held ∨ x = entry ∨ (∃ y, (y = entry ∨ y ∈ th.held) ∧ x ∈ h.graph.kids y)
    ∨ h.length ≤ x

section

omit [LinearOrder K]

theorem Thread.mem_held {x : Nat} :
    x ∈ th.held ↔ x ∈ th.pc.held ∨ ∃ fr ∈ th.stack, fr.fix.viol = x := by
  rw [Thread.held, List.mem_append, List.mem_map]

theorem Thread.held_of_pc {x : Nat} (hx : x ∈ th.pc.held) : x ∈ th.held :=
  Thread.mem_held.mpr (Or.inl hx)

/-- What others may touch when they help the thread is at hand. -/
theorem Thread.held_of_underWay {x : Nat} (hx : x ∈ th.underWay) : x ∈ th.held := by
  rw [Thread.underWay] at hx
  split at hx
  · rename_i w hpc
    refine Thread.held_of_pc ?_
    rw [hpc]
    exact List.mem_append_left _ (List.mem_append_right _ hx)
  · cases hx

theorem Thread.pop_held {x : Nat} (hx : x ∈ th.pop.held) : ∃ fr ∈ th.stack, fr.fix.viol = x := by
  cases hs : th.stack with
  | nil =>
      rw [Thread.pop, hs, Thread.mem_held] at hx
      rcases hx with hx | ⟨fr, hfr, -⟩
      · cases hx
      · cases hfr
  | cons fr stack =>
      cases fr with
      | call f | loop f =>
          rw [Thread.pop, hs, Thread.mem_held] at hx
          rcases hx with hx | ⟨fr, hfr, hx⟩
          · exact ⟨_, List.mem_cons_self, (List.mem_singleton.mp hx).symm⟩
          · exact ⟨fr, List.mem_cons_of_mem _ hfr, hx⟩

theorem Thread.advance_held {w : Attempt K} {x : Nat} :
    x ∈ (th.advance w).held ↔ x ∈ w.held ∨ ∃ fr ∈ th.stack, fr.fix.viol = x := by
  rw [Thread.mem_held]
  rcases th.advance_cases w with ⟨heq, -⟩ | ⟨heq, -⟩ | ⟨heq, -⟩ <;> rw [heq] <;> rfl

theorem Cursor.mem_nodes {c : Cursor} {x : Nat} :
    x ∈ c.nodes ↔ x = c.p ∨ x = c.l ∨ ∃ g ix, c.above = some (g, ix) ∧ x = g := by
  simp only [Cursor.nodes, List.mem_cons, Option.mem_toList, Option.map_eq_some_iff, Prod.exists,
    exists_and_right, exists_eq_right]
  constructor
  · rintro (hx | hx | ⟨ix, hx⟩)
    · exact Or.inl hx
    · exact Or.inr (Or.inl hx)
    · exact Or.inr (Or.inr ⟨x, ⟨ix, hx⟩, rfl⟩)
  · rintro (hx | hx | ⟨g, ⟨ix, hx⟩, rfl⟩)
    · exact Or.inl hx
    · exact Or.inr (Or.inl hx)
    · exact Or.inr (Or.inr ⟨ix, hx⟩)

theorem Cursor.p_mem (c : Cursor) : c.p ∈ c.nodes := List.mem_cons_self

theorem Cursor.l_mem (c : Cursor) : c.l ∈ c.nodes := List.mem_cons_of_mem _ List.mem_cons_self

theorem Cursor.above_mem {c : Cursor} {g ix : Nat} (h : c.above = some (g, ix)) : g ∈ c.nodes :=
  Cursor.mem_nodes.mpr (Or.inr (Or.inr ⟨g, ix, h, rfl⟩))

/-- The nodes of an attempt that has begun. -/
theorem Attempt.mem_held {w : Attempt K} {x : Nat} :
    x ∈ w.held ↔ w.task.viol = some x ∨ x ∈ w.cur.nodes ∨ w.sibling = some x ∨ x ∈ w.nodes
      ∨ ∃ k ∈ w.todo, k.node = x := by
  simp only [Attempt.held, List.mem_append, Option.mem_toList, List.mem_map, or_assoc]

section

variable {w : Attempt K} {x : Nat}

theorem Attempt.viol_mem (h : w.task.viol = some x) : x ∈ w.held :=
  Attempt.mem_held.mpr (Or.inl h)

theorem Attempt.cur_mem (h : x ∈ w.cur.nodes) : x ∈ w.held :=
  Attempt.mem_held.mpr (Or.inr (Or.inl h))

theorem Attempt.sibling_mem (h : w.sibling = some x) : x ∈ w.held :=
  Attempt.mem_held.mpr (Or.inr (Or.inr (Or.inl h)))

theorem Attempt.linked_mem (h : x ∈ w.nodes) : x ∈ w.held :=
  Attempt.mem_held.mpr (Or.inr (Or.inr (Or.inr (Or.inl h))))

theorem Attempt.todo_mem {k : Link} (h : k ∈ w.todo) : k.node ∈ w.held :=
  Attempt.mem_held.mpr (Or.inr (Or.inr (Or.inr (Or.inr ⟨k, h, rfl⟩))))

end

end

omit [LinearOrder K] in
/-- A link moves from those to be done to those that are done. -/
theorem Attempt.held_next {w : Attempt K} {k : Link} {todo : List Link} (htodo : w.todo = k :: todo)
    {info x : Nat}
    (hx : x ∈ ({ w with linked := w.linked ++ [(k, info)], todo := todo } : Attempt K).held) :
    x ∈ w.held := by
  have hmem : ∀ k' ∈ k :: todo, k'.node ∈ w.held := fun k' hk' =>
    Attempt.todo_mem (htodo ▸ hk')
  rcases Attempt.mem_held.mp hx with hx | hx | hx | hx | ⟨k', hk', rfl⟩
  · exact Attempt.viol_mem hx
  · exact Attempt.cur_mem hx
  · exact Attempt.sibling_mem hx
  · rw [Attempt.nodes, List.map_append, List.mem_append] at hx
    rcases hx with hx | hx
    · exact Attempt.linked_mem hx
    · rw [List.mem_singleton.mp hx]
      exact hmem k List.mem_cons_self
  · exact hmem k' (List.mem_cons_of_mem _ hk')

theorem Obtained.of_pc {x : Nat} (hx : x ∈ th.pc.held) : Obtained h th x :=
  Or.inl (Thread.held_of_pc hx)

theorem Obtained.of_frame {fr : Frame} (hfr : fr ∈ th.stack) : Obtained h th fr.fix.viol :=
  Or.inl (Thread.mem_held.mpr (Or.inr ⟨fr, hfr, rfl⟩))

theorem Obtained.entry : Obtained h th entry := Or.inr (Or.inl rfl)

theorem Obtained.child_entry {ix x : Nat} (hx : h.child Abtree.entry ix = some x) :
    Obtained h th x :=
  Or.inr (Or.inr (Or.inl ⟨_, Or.inl rfl, List.mem_of_getElem? (Heap.child_eq_some.mp hx)⟩))

theorem Obtained.child {ix x y : Nat} (hy : y ∈ th.pc.held) (hx : h.child y ix = some x) :
    Obtained h th x :=
  Or.inr (Or.inr (Or.inl ⟨y, Or.inr (Thread.held_of_pc hy),
    List.mem_of_getElem? (Heap.child_eq_some.mp hx)⟩))

theorem Obtained.fresh {x : Nat} (hx : h.length ≤ x) : Obtained h th x :=
  Or.inr (Or.inr (Or.inr hx))

/-- The calls that are made when a loop is left are for nodes at hand. -/
theorem Returns.obtained {frames : List Frame} (R : Returns h th.pc frames) {fr : Frame}
    (hfr : fr ∈ frames) : Obtained h th fr.fix.viol := by
  have hpc : ∀ x ∈ th.pc.held, Obtained h th x := fun x hx => .of_pc hx
  have hkid : ∀ {x y ix}, y ∈ th.pc.held → h.child y ix = some x → Obtained h th x := Obtained.child
  generalize th.pc = pc at R hpc hkid
  cases R with
  | lost | settled | gone | retired => cases hfr
  | parent =>
      simp only [List.mem_cons, List.not_mem_nil, or_false] at hfr
      rcases hfr with rfl | rfl
      · exact hpc _ (List.mem_append_right _ (Cursor.p_mem _))
      · exact hpc _ (List.mem_append_left _ (List.mem_singleton_self _))
  | @single w p l hp hl hsize =>
      have hmem : ∀ x ∈ w.cur.nodes, Obtained h th x := fun x hx =>
        hpc x (Attempt.cur_mem hx)
      rcases List.mem_append.mp hfr with hfr | hfr
      · rw [(mem_weightCall hfr).1]
        exact hmem _ w.cur.p_mem
      · rw [(mem_weightCall hfr).1]
        exact hmem _ w.cur.l_mem
  | @heavy w f p l sn s hp hl hs hsn htask =>
      have hmem : ∀ x ∈ w.cur.nodes, Obtained h th x := fun x hx =>
        hpc x (Attempt.cur_mem hx)
      simp only [List.mem_append, List.mem_singleton] at hfr
      rcases hfr with ((hfr | hfr) | hfr) | rfl
      · rw [(mem_weightCall hfr).1]
        exact hmem _ w.cur.p_mem
      · rw [(mem_weightCall hfr).1]
        exact hmem _ w.cur.l_mem
      · rw [(mem_weightCall hfr).1]
        exact hkid (Attempt.cur_mem w.cur.p_mem) hs
      · exact hpc _ (Attempt.viol_mem (by rw [htask]; rfl))

omit [LinearOrder K] in
/-- An attempt begins with the nodes of the search. -/
theorem Attempt.held_begin {task : Task K} {key : K} {c : Cursor} {todo : List Link}
    (htodo : ∀ k ∈ todo, k.node ∈ c.nodes) {x : Nat}
    (hx : x ∈ (⟨task, c, none, [], todo⟩ : Attempt K).held) :
    x ∈ (Pc.search task key c).held := by
  rcases Attempt.mem_held.mp hx with hx | hx | hx | hx | ⟨k, hk, rfl⟩
  · exact List.mem_append_left _ (Option.mem_toList.mpr hx)
  · exact List.mem_append_right _ hx
  · cases hx
  · cases hx
  · exact List.mem_append_right _ (htodo k hk)

omit [LinearOrder K] in
theorem Thread.mem_retry {task : Task K} {x : Nat} (hx : x ∈ (th.retry task).held) :
    task.viol = some x ∨ ∃ fr ∈ th.stack, fr.fix.viol = x := by
  cases task with
  | op op => exact Or.inr ((Thread.mem_held.mp hx).resolve_left (by simp [Thread.retry, Pc.held]))
  | fix f =>
      refine (Thread.mem_held.mp hx).imp_left fun hx => ?_
      exact (List.mem_singleton.mp hx) ▸ rfl

/-- **Where a thread gets its addresses from.** -/
theorem Move.held (hb : 3 ≤ b) (L : Labelled b h lab) (T : ThreadOk h lab th)
    (M : Move b h th h' th' rs) {x : Nat} (hx : x ∈ th'.held) : Obtained h th x := by
  have hst : ∀ fr ∈ th.stack, Obtained h th fr.fix.viol := fun fr hfr => .of_frame hfr
  -- a step to `pc` that leaves the stack alone
  have hpc : ∀ pc : Pc K, (∀ y ∈ pc.held, Obtained h th y) →
      x ∈ ({ th with pc := pc } : Thread K).held → Obtained h th x := by
    intro pc hheld hx
    rcases Thread.mem_held.mp hx with hx | ⟨fr, hfr, rfl⟩
    · exact hheld x hx
    · exact hst fr hfr
  have hat : ∀ {pc : Pc K}, th.pc = pc → ∀ y ∈ pc.held, Obtained h th y := by
    rintro pc rfl y hy
    exact .of_pc hy
  have hkid : ∀ {pc : Pc K} {y ix c : Nat}, th.pc = pc → y ∈ pc.held → h.child y ix = some c →
      Obtained h th c := by
    rintro pc y ix c rfl hy hc
    exact .child hy hc
  have hadvance : ∀ w : Attempt K, (∀ y ∈ w.held, Obtained h th y) →
      x ∈ (th.advance w).held → Obtained h th x := by
    intro w hheld hx
    rcases Thread.advance_held.mp hx with hx | ⟨fr, hfr, rfl⟩
    · exact hheld x hx
    · exact hst fr hfr
  have hpair : ∀ (c : Cursor) (g ix : Nat), c.above = some (g, ix) → ∀ k ∈ fixPair c g ix,
      k.node ∈ c.nodes := by
    intro c g ix habove k hk
    simp only [fixPair, List.mem_cons, List.not_mem_nil, or_false] at hk
    rcases hk with rfl | rfl
    · exact Cursor.above_mem habove
    · exact c.p_mem
  cases M with
  | begin he => exact hpc _ (fun y hy => by cases hy) hx
  | @enter task l key he hl hkey =>
      refine hpc _ (fun y hy => ?_) hx
      rcases List.mem_append.mp hy with hy | hy
      · exact hat he y hy
      · rcases Cursor.mem_nodes.mp hy with rfl | rfl | ⟨g, ix, hg, rfl⟩
        · exact .entry
        · exact .child_entry hl
        · cases hg
  | @descend task key c l next he hl hleaf hviol hnext =>
      refine hpc _ (fun y hy => ?_) hx
      have hc : ∀ y ∈ c.nodes, Obtained h th y := fun y hy =>
        hat he y (List.mem_append_right _ hy)
      rcases List.mem_append.mp hy with hy | hy
      · exact hat he y (List.mem_append_left _ hy)
      · rcases Cursor.mem_nodes.mp hy with rfl | rfl | ⟨g, ix, hg, rfl⟩
        · exact hc _ c.l_mem
        · exact hkid he (List.mem_append_right _ c.l_mem) hnext
        · cases hg
          exact hc _ c.p_mem
  | answer he =>
      obtain ⟨fr, hfr, rfl⟩ := Thread.pop_held hx
      exact hst fr hfr
  | @aim op key c l he hl hleaf hup =>
      refine hpc (.llx _) (fun y hy => hat he y (Attempt.held_begin (fun k hk => ?_) hy)) hx
      rw [List.mem_singleton.mp hk]
      exact c.p_mem
  | @aimWeight key c g ix p l he habove hp hw hl =>
      refine hpc (.llx _) (fun y hy => hat he y (Attempt.held_begin (fun k hk => ?_) hy)) hx
      rcases List.mem_append.mp hk with hk | hk
      · exact hpair c g ix habove k hk
      · split at hk
        · cases hk
        · rw [List.mem_singleton.mp hk]
          exact c.l_mem
  | @aimDegree key c g ix he habove =>
      exact hpc (.llx _) (fun y hy => hat he y (Attempt.held_begin (hpair c g ix habove) hy)) hx
  | look he => exact hpc _ (hat he) hx
  | present he => exact hpc _ (hat he) hx
  | link he => exact hpc _ (hat he) hx
  | linked he htodo => exact hadvance _ (fun y hy => hat he y (Attempt.held_next htodo hy)) hx
  | checked he htodo => exact hadvance _ (fun y hy => hat he y (Attempt.held_next htodo hy)) hx
  | @retry w he =>
      rcases Thread.mem_retry hx with hx | ⟨fr, hfr, rfl⟩
      · have hw : x ∈ w.held := Attempt.viol_mem hx
        rcases he with he | ⟨info, he⟩ | he <;> exact hat he x hw
      · exact hst fr hfr
  | @sibling w p l sn s he hp hl hs =>
      refine hadvance _ (fun y hy => ?_) hx
      have hw : ∀ y ∈ w.held, Obtained h th y := hat he
      have hs' : Obtained h th s :=
        hkid he (Attempt.cur_mem w.cur.p_mem) hs
      have hl' : Obtained h th w.cur.l :=
        hw _ (Attempt.cur_mem w.cur.l_mem)
      rcases Attempt.mem_held.mp hy with hy | hy | hy | hy | ⟨k, hk, rfl⟩
      · exact hw y (Attempt.viol_mem hy)
      · exact hw y (Attempt.cur_mem hy)
      · exact Option.some.inj hy ▸ hs'
      · exact hw y (Attempt.linked_mem hy)
      · have hcases : k.node = w.cur.l ∨ k.node = s := by
          dsimp only at hk
          split at hk <;> split at hk <;>
            simp only [List.mem_cons, List.not_mem_nil, or_false] at hk
          · rcases hk with rfl | rfl
            · exact Or.inl rfl
            · exact Or.inr rfl
          · rcases hk with rfl | rfl
            · exact Or.inr rfl
            · exact Or.inl rfl
        rcases hcases with hk | hk <;> rw [hk]
        · exact hl'
        · exact hs'
  | @commit w u k he hu X =>
      have hok := T.pc
      rw [he] at hok
      obtain ⟨A, htodo, hsib⟩ := hok
      obtain ⟨old, top, labs, C, -⟩ := A.committed hb L htodo hsib hu X
      rcases Thread.mem_held.mp hx with hx | ⟨fr, hfr, rfl⟩
      · refine hat he x ?_
        rcases C.held x hx with rfl | rfl | hs
        · exact Attempt.cur_mem w.cur.p_mem
        · exact Attempt.cur_mem w.cur.l_mem
        · exact Attempt.sibling_mem hs
      · rcases List.mem_append.mp hfr with hfr | hfr
        · obtain ⟨f, hf, rfl⟩ := List.mem_map.mp hfr
          obtain ⟨i, -, hv⟩ := C.calls f hf
          exact .fresh (hv ▸ Nat.le_add_right _ _)
        · exact hst fr hfr
  | retire he =>
      exact hpc (.retire _) (fun y hy => hat he y (List.mem_cons_of_mem _ hy)) hx
  | returns R =>
      obtain ⟨fr, hfr, rfl⟩ := Thread.pop_held hx
      rcases List.mem_append.mp hfr with hfr | hfr
      · exact R.obtained hfr
      · exact hst fr hfr

end Held

/-! ## What is cut off -/

/-- No pointer leads into the nodes `B` from other nodes. -/
abbrev Heap.Cut (h : Heap K) (B : Set Nat) : Prop := h.graph.Cut entry (· < h.length) B

section Cut

variable {b : Nat} {h h' : Heap K} {lab : Labels K} {th th' : Thread K} {rs : List Nat}
  {B : Set Nat}

/-- A step leaves the heap as it is or makes a change that fits. -/
theorem Move.heap_cases (hb : 3 ≤ b) (L : Labelled b h lab) (T : ThreadOk h lab th)
    (M : Move b h th h' th' rs) : h' = h ∨ ∃ V R g ix old top news rem labs,
      Fits b h lab V R g ix old top news rem labs
        ∧ h' = h.change V R g ix (h.length + top) news := by
  cases M with
  | @commit w u k he hu X =>
      have hok := T.pc
      rw [he] at hok
      obtain ⟨A, htodo, hsib⟩ := hok
      obtain ⟨old, top, labs, C, heq⟩ := A.committed hb L htodo hsib hu X
      rw [heq]
      exact Or.inr ⟨_, _, _, _, _, _, _, _, _, C.fits, by rw [C.new_eq]⟩
  | _ => exact Or.inl rfl

theorem Move.cut (hb : 3 ≤ b) (L : Labelled b h lab) (T : ThreadOk h lab th)
    (M : Move b h th h' th' rs) (C : h.Cut B) : h'.Cut B := by
  rcases M.heap_cases hb L T with rfl | ⟨V, R, g, ix, old, top, news, rem, labs, F, rfl⟩
  · exact C
  · refine (F.splice L).cut L.ranged F.member (fun x hx => ?_) (fun x hx => ?_) C
    · rw [Heap.change_length]
      exact Nat.lt_add_right _ hx
    · rw [Heap.change_length] at hx
      rcases Nat.lt_or_ge x h.length with hlt | hge
      · exact Or.inl hlt
      · exact Or.inr (Fits.mem_added.mpr ⟨x - h.length, by omega, by omega⟩)

/-- What is cut off is out of reach for a thread that holds nothing of it. -/
theorem Obtained.not_mem (C : h.Cut B) (hclear : ∀ y ∈ th.held, y ∉ B)
    {x : Nat} (hx : Obtained h th x) : x ∉ B := by
  rcases hx with hx | rfl | ⟨y, hy, hkid⟩ | hx
  · exact hclear x hx
  · exact C.root_not_mem
  · have hyB : y ∉ B := by
      rcases hy with rfl | hy
      · exact C.root_not_mem
      · exact hclear y hy
    cases hn : h.node y with
    | none => simp [Heap.graph, hn] at hkid
    | some n => exact C.kid_not_mem y x (Heap.node_lt hn) hyB hkid
  · exact fun hB => absurd (C.pub x hB) (Nat.not_lt.mpr hx)

end Cut

/-! ## The machine -/

section Machine

variable {P : Provider K} {b : Nat} {s s' s₁ s₂ : State K} {lab : Labels K}
  {a : Action K P.Env} {anyKey : K} {numProcesses t : Nat}
  {tr₁ tr₂ : List (Trans (State K) (Action K P.Env))} {B : Set Nat}

/-- The nodes `B` are cut off, and thread `t` holds none of them. -/
structure Clear (s : State K) (t : Nat) (B : Set Nat) : Prop where
  cut : s.heap.Cut B
  held : ∀ th, s.threads[t]? = some th → ∀ x ∈ th.held, x ∉ B

theorem StateOk.clear (hb : 3 ≤ b) (S : StateOk b s lab) (C : Clear s t B)
    (hs : Abtree.step P b s a = some s') : Clear s' t B := by
  -- the thread `u` becomes `th'`
  have hset : ∀ (u : Nat) (th th' : Thread K), s.threads[u]? = some th →
      (u = t → ∀ x ∈ th'.held, x ∉ B) → ∀ th'', (s.threads.set u th')[t]? = some th'' →
      ∀ x ∈ th''.held, x ∉ B := by
    intro u th th' hu hheld th'' hth''
    by_cases hut : u = t
    · subst hut
      rw [List.getElem?_set_self (List.getElem?_eq_some_iff.mp hu).1] at hth''
      cases hth''
      exact hheld rfl
    · rw [List.getElem?_set_ne hut] at hth''
      exact C.held th'' hth''
  rcases step_cases hs with ⟨u, op, th, rfl, hth, hpc, rfl⟩
    | ⟨u, e, th, th', h', rs, rfl, hth, M, rfl⟩ | ⟨u, th, rfl, hth, hpc, rfl⟩
  · refine ⟨C.cut, hset u th _ hth fun hu x hx => C.held th (hu ▸ hth) x ?_⟩
    rw [Thread.mem_held, hpc]
    exact Thread.mem_held.mp hx
  · have T := S.threads th (List.mem_of_getElem? hth)
    refine ⟨M.cut hb S.heap T C.cut, hset u th _ hth fun hu x hx => ?_⟩
    exact (M.held hb S.heap T hx).not_mem C.cut (C.held th (hu ▸ hth))
  · refine ⟨C.cut, hset u th _ hth fun hu x hx => C.held th (hu ▸ hth) x ?_⟩
    rw [Thread.mem_held, hpc]
    exact Thread.mem_held.mp hx

end Machine

end Pacer.Abtree
