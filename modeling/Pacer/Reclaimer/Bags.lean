import Pacer.Reclaimer.Ring
import Mathlib.Algebra.Order.Group.Multiset

set_option autoImplicit false

/-! # The bags of the reclaimer

What a step does to the nodes in the three bags of a thread for a record type, taken together:
`retire` adds one, `pool->add` takes one, and everything else, the rotation included, only moves
nodes between the bags (`nodes_step`).
-/

namespace Pacer.Reclaimer

section

variable {F P : Type} [F64 F] [DecidableEq P] {N m : Nat}

/-! ## The nodes in the bags -/

/-- What is in the bags of record type `j` of thread `u`. -/
def Bags.nodes (b : Bags (Node P N)) : Multiset (Node P N) :=
  b.curr + b.last + b.deamortizedFreeables

omit [DecidableEq P] in
theorem Bags.nodes_empty : (Bags.empty : Bags (Node P N)).nodes = 0 := rfl

omit [DecidableEq P] in
theorem Bags.nodes_retire (b : Bags (Node P N)) (e : Node P N) :
    (b.retire e).nodes = b.nodes + {e} := by
  rw [add_comm b.nodes, Multiset.singleton_add]
  simp only [Bags.nodes, Bags.retire, Multiset.cons_add]

/-- The rotation moves nodes between the bags. -/
theorem Bags.nodes_rotateEpochBags (b : Bags (Node P N)) {moved : Multiset (Node P N)}
    (h : moved ≤ b.last) : (b.rotateEpochBags moved).nodes = b.nodes := by
  calc (b.rotateEpochBags moved).nodes
      = b.curr + (b.last - moved + moved) + b.deamortizedFreeables := by
        simp only [Bags.nodes, Bags.rotateEpochBags]
        ac_rfl
    _ = b.nodes := by rw [Multiset.sub_add_cancel h, Bags.nodes]

theorem Bags.nodes_remove (b : Bags (Node P N)) {e : Node P N}
    (h : e ∈ b.deamortizedFreeables) : (b.remove e).nodes + {e} = b.nodes := by
  simp only [Bags.nodes, Bags.remove]
  rw [add_assoc, add_comm (b.deamortizedFreeables.erase e), Multiset.singleton_add,
    Multiset.cons_erase h]

/-! ## The bags of one thread and record type -/

section

omit [F64 F] [DecidableEq P]

theorem setBags_self (s : State F P N) (i : Fin N) (j : Nat) (b : Bags (Node P N)) :
    s.setBags i j b i j = b := by
  simp [State.setBags]

theorem setBags_of_ne (s : State F P N) {i i' : Fin N} {j j' : Nat} (b : Bags (Node P N))
    (h : i' = i → j' ≠ j) : s.setBags i j b i' j' = s.bags i' j' := by
  unfold State.setBags
  by_cases hi : i' = i
  · subst hi
    rw [Function.update_self, Function.update_of_ne (h rfl)]
  · rw [Function.update_of_ne hi]

/-- The nodes of the bags after they were set for one thread and record type. -/
theorem nodes_setBags (s : State F P N) (i : Fin N) (j : Nat) (b : Bags (Node P N)) (u : Fin N)
    (k : Nat) :
    (s.setBags i j b u k).nodes = if i = u ∧ j = k then b.nodes else (s.bags u k).nodes := by
  split
  · rename_i h
    obtain ⟨rfl, rfl⟩ := h
    rw [setBags_self]
  · rename_i h
    rw [setBags_of_ne s b (fun hu hk => h ⟨hu.symm, hk.symm⟩)]

end

/-! ## What a step adds and takes -/

/-- The node that the action retires into the bags of thread `u` and record type `j`. -/
def Action.retires (a : Action P N) (s : State F P N) (u : Fin N) (j : Nat) :
    Multiset (Node P N) :=
  match a with
  | .retire i k ptr => if i = u ∧ k = j then {s.node ptr} else 0
  | _ => 0

/-- The node that the action hands to the pool from them. -/
def Action.hands (a : Action P N) (u : Fin N) (j : Nat) : Multiset (Node P N) :=
  match a with
  | .poolAdd i e => if i = u ∧ 0 = j then {e} else 0
  | _ => 0

/-- The bags of thread `i` after it has retired the node at `ptr`. -/
def State.retireNode (s : State F P N) (i : Fin N) (j : Nat) (ptr : P) : State F P N :=
  { s with bags := s.setBags i j ((s.bags i j).retire (s.node ptr)) }

omit [F64 F] [DecidableEq P] in
theorem nodes_retireNode (s : State F P N) (i : Fin N) (j : Nat) (ptr : P) (u : Fin N) (k : Nat) :
    ((s.retireNode i j ptr).bags u k).nodes
      = (s.bags u k).nodes + (Action.retire i j ptr).retires s u k := by
  show (s.setBags i j _ u k).nodes
    = (s.bags u k).nodes + (if i = u ∧ j = k then {s.node ptr} else 0)
  rw [nodes_setBags]
  split
  · rename_i h
    obtain ⟨rfl, rfl⟩ := h
    exact Bags.nodes_retire _ _
  · exact (add_zero _).symm

/-- **One step**: what is in the bags afterwards and what was handed over is what was in them
before and what was retired. -/
theorem nodes_step {s s' : State F P N} {a : Action P N} (h : Stepped m s a s') (u : Fin N)
    (j : Nat) :
    (s'.bags u j).nodes + a.hands u j = (s.bags u j).nodes + a.retires s u j := by
  cases h with
  | rotate i k moved hpc hm =>
      show (s.setBags i k _ u j).nodes + 0 = (s.bags u j).nodes + 0
      rw [nodes_setBags, Bags.nodes_rotateEpochBags _ hm]
      split
      · rename_i h
        obtain ⟨rfl, rfl⟩ := h
        rfl
      · rfl
  | poolAdd i k e hpc he =>
      show (s.setBags i 0 _ u j).nodes + (if i = u ∧ 0 = j then {e} else 0)
        = (s.bags u j).nodes + 0
      rw [nodes_setBags, add_zero]
      split
      · rename_i h
        obtain ⟨rfl, rfl⟩ := h
        exact Bags.nodes_remove _ he
      · exact add_zero _
  | retire i k ptr hpc =>
      show ((s.retireNode i k ptr).bags u j).nodes + 0 = _
      rw [nodes_retireNode, add_zero]
  | _ => rfl

omit [F64 F] [DecidableEq P] in
theorem mem_retires {s : State F P N} {a : Action P N} {u : Fin N} {k : Nat} {e : Node P N}
    (h : e ∈ a.retires s u k) : ∃ ptr, a = .retire u k ptr ∧ e = s.node ptr := by
  cases a with
  | retire i j ptr =>
      simp only [Action.retires] at h
      split at h
      · rename_i hij
        obtain ⟨rfl, rfl⟩ := hij
        exact ⟨ptr, rfl, Multiset.mem_singleton.mp h⟩
      · exact absurd h (Multiset.notMem_zero e)
  | _ => exact absurd h (Multiset.notMem_zero e)

/-- A step brings a node into the bags only by its retirement. -/
theorem mem_nodes_step {s s' : State F P N} {a : Action P N} (h : Stepped m s a s')
    {u : Fin N} {j : Nat} {e : Node P N} (he : e ∈ (s'.bags u j).nodes) :
    e ∈ (s.bags u j).nodes ∨ a = .retire u j e.ptr ∧ s.node e.ptr = e := by
  have hafter : e ∈ (s'.bags u j).nodes + a.hands u j := Multiset.mem_add.mpr (Or.inl he)
  rw [nodes_step h, Multiset.mem_add] at hafter
  rcases hafter with hold | hnew
  · exact Or.inl hold
  · obtain ⟨ptr, rfl, rfl⟩ := mem_retires hnew
    exact Or.inr ⟨rfl, rfl⟩

end

end Pacer.Reclaimer
