import Pacer.Reclaimer.Bags

set_option autoImplicit false

/-! # The grace period of the reclaimer

A node retired by thread `i` waits in `curr` for the next receipt of `i`, then in `last` for the
one after. Between these two receipts every other thread has received the token once, at the
start of an operation begun after the retirement. What is in `last` is therefore bounded by
the receipts: each thread that has received since `i` did has begun an operation since
(`SinceReceipt`). When `i` receives again this is every thread (`Aged`), and only then does the
rotation move nodes of `last` to `deamortizedFreeables`, or back to `curr`, where they start
anew.

From the receipt of `i` to the rotation of record type `j` (`Pc.pending`) the roles are those of
the bags after the rotation: `last` is aged and `curr` is what `last` will be.
-/

namespace Pacer.Reclaimer

open Machine TokenRing

/-- The thread has received the token and not yet rotated the bags of record type `j`. -/
def Pc.pending (j : Nat) : Pc → Bool
  | .clearToken | .setNext => true
  | .rotate k => decide (k ≤ j)
  | _ => false

section

variable {F P : Type} [F64 F] [DecidableEq P] {N : Nat} {m : Nat}

/-! ## Ages -/

/-- Every thread has begun an operation since `e` was retired. -/
def Aged (s : State F P N) (e : Node P N) : Prop := ∀ u, e.begunAt u < s.begun u

/-- Every thread that has received the token since thread `i` did has begun an operation
since `e` was retired. -/
def SinceReceipt (s : State F P N) (i : Fin N) (e : Node P N) : Prop :=
  ∀ u : Fin N, ReceivedSince i (s.receipts i) u (s.receipts u) → e.begunAt u < s.begun u

/-- `e` was retired in the past. -/
def Known (s : State F P N) (e : Node P N) : Prop := ∀ u, e.begunAt u ≤ s.begun u

omit [F64 F] [DecidableEq P] in
theorem Aged.known {s : State F P N} {e : Node P N} (h : Aged s e) : Known s e :=
  fun u => (h u).le

/-- A step begins an operation of each thread that it lets receive the token. -/
theorem begun_step {s s' : State F P N} {a : Action P N} (h : Stepped m s a s') (u : Fin N) :
    s.begun u ≤ s'.begun u ∧ ((∃ readOnly, a = .startOp u readOnly) → s.begun u < s'.begun u) := by
  have hbegin : ∀ (i : Fin N) (readOnly readOnly' : Bool) (q : Pc),
      s.begun u ≤ (s.begin i readOnly q).begun u
        ∧ ((∃ readOnly, (Action.startOp i readOnly' : Action P N) = .startOp u readOnly)
          → s.begun u < (s.begin i readOnly q).begun u) := by
    intro i readOnly readOnly' q
    by_cases hu : u = i
    · subst hu
      simp [State.begin]
    · have hne : i ≠ u := Ne.symm hu
      simp [State.begin, State.advance, hu, hne]
  cases h with
  | receive i readOnly => exact hbegin i readOnly readOnly _
  | start i readOnly => exact hbegin i readOnly readOnly _
  | _ => exact ⟨le_rfl, by rintro ⟨_, h⟩; cases h⟩

theorem Aged.step {s s' : State F P N} {a : Action P N} {e : Node P N} (hs : Stepped m s a s')
    (h : Aged s e) : Aged s' e :=
  fun u => lt_of_lt_of_le (h u) (begun_step hs u).1

theorem Known.step {s s' : State F P N} {a : Action P N} {e : Node P N} (hs : Stepped m s a s')
    (h : Known s e) : Known s' e :=
  fun u => le_trans (h u) (begun_step hs u).1

/-- Whoever receives the token begins an operation, so the bound survives every step but the
receipt of `i` itself. -/
theorem SinceReceipt.step {s s' : State F P N} {a : Action P N} {e : Node P N} {i : Fin N}
    (hs : Stepped m s a s') (hi : s'.receipts i = s.receipts i) (hk : Known s e)
    (h : SinceReceipt s i e) : SinceReceipt s' i e := by
  intro u hu
  obtain ⟨hle, hlt⟩ := begun_step hs u
  rcases receipts_step hs u with hsame | ⟨hstart, -⟩
  · rw [hi, hsame] at hu
    exact lt_of_lt_of_le (h u hu) hle
  · -- `u` receives in this step, in an operation that begins now
    exact lt_of_le_of_lt (hk u) (hlt hstart)

omit [F64 F] [DecidableEq P] in
/-- When `i` receives the token, what was bounded by its last receipt is aged. -/
theorem SinceReceipt.aged {s : State F P N} {k : Nat} {i : Fin N} {e : Node P N}
    (hw : Waiting s k) (hi : i.val = k % N) (h : SinceReceipt s i e) : Aged s e := by
  intro u
  apply h
  rw [hw.receipts, hw.receipts]
  exact receivedSince_turn hi.symm u

omit [F64 F] [DecidableEq P] in
/-- Nobody but `i` has received the token since `i` did just now. -/
theorem sinceReceipt_receive {s : State F P N} {k : Nat} {i : Fin N} {e : Node P N}
    (hw : Waiting s k) (hi : i.val = k % N) (hpc : s.pc i = .idle) (readOnly : Bool)
    (hk : Known s e) : SinceReceipt (s.begin i readOnly .clearToken) i e := by
  intro u hu
  by_cases hui : u = i
  · subst hui
    have := hk u
    simp only [State.begin, Function.update_self]
    omega
  · rw [receipts_begin readOnly hpc, receipts_begin readOnly hpc, if_pos rfl, if_neg hui,
      hw.receipts, hw.receipts] at hu
    exact absurd hu (not_receivedSince_turn hi.symm (fun h => hui (Fin.ext h)))

/-! ## The invariant of the bags -/

/-- The ages of the nodes that thread `i` keeps for record type `j`. -/
structure BagInv (s : State F P N) (i : Fin N) (j : Nat) : Prop where
  currKnown : ∀ e ∈ (s.bags i j).curr, Known s e
  curr : (s.pc i).pending j = true → ∀ e ∈ (s.bags i j).curr, SinceReceipt s i e
  lastKnown : ∀ e ∈ (s.bags i j).last, Known s e
  last : ∀ e ∈ (s.bags i j).last, SinceReceipt s i e
  lastPending : (s.pc i).pending j = true → ∀ e ∈ (s.bags i j).last, Aged s e
  freeable : ∀ e ∈ (s.bags i j).deamortizedFreeables, Aged s e

omit [DecidableEq P] in
theorem bagInv_init (i : Fin N) (j : Nat) : BagInv (init F P N) i j := by
  constructor <;> intros <;> simp [init, Bags.empty] at *

/-- A step that neither touches the bags nor lets `i` receive the token. -/
theorem BagInv.frame {s s' : State F P N} {a : Action P N} {i : Fin N} {j : Nat}
    (hs : Stepped m s a s') (h : BagInv s i j) (hb : s'.bags i j = s.bags i j)
    (hi : s'.receipts i = s.receipts i)
    (hp : (s'.pc i).pending j = true → (s.pc i).pending j = true) : BagInv s' i j := by
  constructor <;> rw [hb]
  · exact fun e he => (h.currKnown e he).step hs
  · exact fun hpend e he => (h.curr (hp hpend) e he).step hs hi (h.currKnown e he)
  · exact fun e he => (h.lastKnown e he).step hs
  · exact fun e he => (h.last e he).step hs hi (h.lastKnown e he)
  · exact fun hpend e he => (h.lastPending (hp hpend) e he).step hs
  · exact fun e he => (h.freeable e he).step hs

/-- The receipt of `i`. -/
theorem BagInv.receive {s : State F P N} {k : Nat} {i : Fin N} {j : Nat} {readOnly : Bool}
    (h : BagInv s i j) (hw : Waiting s k) (hi : i.val = k % N) (hpc : s.pc i = .idle)
    (hs : Stepped m s (.startOp i readOnly) (s.begin i readOnly .clearToken)) :
    BagInv (s.begin i readOnly .clearToken) i j := by
  constructor
  · exact fun e he => (h.currKnown e he).step hs
  · exact fun _ e he => sinceReceipt_receive hw hi hpc readOnly (h.currKnown e he)
  · exact fun e he => (h.lastKnown e he).step hs
  · exact fun e he => sinceReceipt_receive hw hi hpc readOnly (h.lastKnown e he)
  · exact fun _ e he => ((h.last e he).aged hw hi).step hs
  · exact fun e he => (h.freeable e he).step hs

/-- The rotation of record type `j`. -/
theorem BagInv.rotate {s s' : State F P N} {i : Fin N} {j : Nat}
    {moved : Multiset (Node P N)} (h : BagInv s i j)
    (hs : Stepped m s (.rotate i moved) s') (hpc : s.pc i = .rotate j)
    (hm : moved ≤ (s.bags i j).last) (hb : s'.bags i j = (s.bags i j).rotateEpochBags moved)
    (hi : s'.receipts i = s.receipts i) (hp : (s'.pc i).pending j = false) :
    BagInv s' i j := by
  have hpend : (s.pc i).pending j = true := by simp [hpc, Pc.pending]
  have haged : ∀ e ∈ (s.bags i j).last, Aged s' e :=
    fun e he => (h.lastPending hpend e he).step hs
  constructor <;> rw [hb]
  · exact fun e he => (haged e (Multiset.mem_of_le (Multiset.sub_le_self _ _) he)).known
  · exact fun h => absurd h (by rw [hp]; exact Bool.false_ne_true)
  · exact fun e he => (h.currKnown e he).step hs
  · exact fun e he => (h.curr hpend e he).step hs hi (h.currKnown e he)
  · exact fun h => absurd h (by rw [hp]; exact Bool.false_ne_true)
  · -- what the rotation moves comes from the aged bag
    intro e he
    rcases Multiset.mem_add.mp he with he | he
    · exact (h.freeable e he).step hs
    · exact haged e (Multiset.mem_of_le hm he)

theorem BagInv.poolAdd {s s' : State F P N} {i : Fin N} {e : Node P N} (h : BagInv s i 0)
    (hs : Stepped m s (.poolAdd i e) s') (hb : s'.bags i 0 = (s.bags i 0).remove e)
    (hi : s'.receipts i = s.receipts i) (hp : (s'.pc i).pending 0 = false) :
    BagInv s' i 0 := by
  constructor <;> rw [hb]
  · exact fun e he => (h.currKnown e he).step hs
  · exact fun h => absurd h (by rw [hp]; exact Bool.false_ne_true)
  · exact fun e he => (h.lastKnown e he).step hs
  · exact fun e he => (h.last e he).step hs hi (h.lastKnown e he)
  · exact fun h => absurd h (by rw [hp]; exact Bool.false_ne_true)
  · exact fun e he => (h.freeable e (Multiset.mem_of_mem_erase he)).step hs

theorem BagInv.retire {s s' : State F P N} {i : Fin N} {j : Nat} {ptr : P} (h : BagInv s i j)
    (hs : Stepped m s (.retire i j ptr) s')
    (hb : s'.bags i j = (s.bags i j).retire (s.node ptr))
    (hi : s'.receipts i = s.receipts i) (hp : (s'.pc i).pending j = false) :
    BagInv s' i j := by
  constructor <;> rw [hb]
  · intro e he
    rcases Multiset.mem_cons.mp he with rfl | he
    · exact fun u => (begun_step hs u).1
    · exact (h.currKnown e he).step hs
  · exact fun h => absurd h (by rw [hp]; exact Bool.false_ne_true)
  · exact fun e he => (h.lastKnown e he).step hs
  · exact fun e he => (h.last e he).step hs hi (h.lastKnown e he)
  · exact fun h => absurd h (by rw [hp]; exact Bool.false_ne_true)
  · exact fun e he => (h.freeable e he).step hs

/-! ## Every step keeps the invariant -/

def Action.thread : Action P N → Fin N
  | .startOp i _ | .run i | .rotate i _ | .poolAdd i _ | .retire i _ _ | .endOp i => i

/-- A step of one thread changes neither the bags nor the program counter of another. -/
theorem step_other {s s' : State F P N} {a : Action P N} (h : Stepped m s a s') {u : Fin N}
    (hu : u ≠ a.thread) : (∀ j, s'.bags u j = s.bags u j) ∧ s'.pc u = s.pc u
      ∧ s'.receipts u = s.receipts u := by
  have hrec : s'.receipts u = s.receipts u := by
    rcases receipts_step h u with hsame | ⟨⟨_, rfl⟩, -⟩
    · exact hsame
    · exact absurd rfl hu
  refine ⟨fun j => ?_, ?_, hrec⟩
  · cases h with
    | rotate | poolAdd | retire => exact setBags_of_ne s _ (fun h => absurd h hu)
    | _ => rfl
  · cases h with
    | retire => rfl
    | _ => exact Function.update_of_ne hu _ _

/-- Only the read of a set token is a receipt. -/
theorem receipts_of_not_start {s s' : State F P N} {a : Action P N} (h : Stepped m s a s')
    (ha : ∀ i readOnly, a ≠ .startOp i readOnly) (u : Fin N) : s'.receipts u = s.receipts u := by
  rcases receipts_step h u with hsame | ⟨⟨readOnly, rfl⟩, -⟩
  · exact hsame
  · exact absurd rfl (ha u readOnly)

theorem pending_rotateFrom {k j : Nat} (h : (rotateFrom m k).pending j = true) : k ≤ j := by
  unfold rotateFrom at h
  split at h
  · simpa [Pc.pending] using h
  · cases h

/-- **Every step keeps the ages.** -/
theorem bagInv_step {s s' : State F P N} {a : Action P N} (h : Stepped m s a s')
    (hring : RingInv s) (hinv : ∀ i j, BagInv s i j) (u : Fin N) (j : Nat) :
    BagInv s' u j := by
  by_cases hu : u = a.thread
  case neg =>
    -- the bags of the others stay as they are
    obtain ⟨hb, hpc, hrec⟩ := step_other h hu
    exact (hinv u j).frame h (hb j) hrec (by rw [hpc]; exact id)
  subst hu
  have hcopy := h
  cases h with
  | receive i readOnly hpc ht =>
      obtain ⟨k, hw, hi⟩ := hring.waiting hpc ht
      exact (hinv i j).receive hw hi hpc hcopy
  | start i readOnly hpc ht =>
      have hrec : (s.begin i readOnly .select).receipts i = s.receipts i := by
        rcases receipts_step hcopy i with hsame | ⟨-, -, hne, -⟩
        · exact hsame
        · exact absurd ht hne
      refine (hinv i j).frame hcopy rfl hrec (fun hp => ?_)
      simp [State.begin, State.advance, Action.thread, Pc.pending] at hp
  | clear i hpc =>
      refine (hinv i j).frame hcopy rfl (receipts_of_not_start hcopy (by simp) i) (fun _ => ?_)
      simp [Action.thread, hpc, Pc.pending]
  | pass i hpc =>
      refine (hinv i j).frame hcopy rfl (receipts_of_not_start hcopy (by simp) i) (fun _ => ?_)
      simp [Action.thread, hpc, Pc.pending]
  | rotate i k moved hpc hm =>
      have hrec := receipts_of_not_start hcopy (by simp) i
      by_cases hj : j = k
      · subst hj
        refine (hinv i j).rotate hcopy hpc hm (setBags_self _ _ _ _) hrec ?_
        -- the rotation of `j` is done, the next is that of a later record type
        rw [Bool.eq_false_iff]
        intro hp
        have := pending_rotateFrom (by simpa using hp)
        omega
      · refine (hinv i j).frame hcopy (setBags_of_ne s _ (fun _ => hj)) hrec (fun hp => ?_)
        have := pending_rotateFrom (by simpa [Action.thread] using hp)
        simp only [Action.thread, hpc, Pc.pending, decide_eq_true_eq]
        omega
  | select i hpc =>
      refine (hinv i j).frame hcopy rfl (receipts_of_not_start hcopy (by simp) i) (fun hp => ?_)
      simp [State.advance, Action.thread, Pc.pending] at hp
  | poolAdd i k e hpc he =>
      have hrec := receipts_of_not_start hcopy (by simp) i
      by_cases hj : j = 0
      · subst hj
        exact (hinv i 0).poolAdd hcopy (setBags_self _ _ _ _) hrec (by simp [Pc.pending])
      · refine (hinv i j).frame hcopy (setBags_of_ne s _ (fun _ => hj)) hrec (fun hp => ?_)
        simp [Action.thread, Pc.pending] at hp
  | enter i k hpc =>
      refine (hinv i j).frame hcopy rfl (receipts_of_not_start hcopy (by simp) i) (fun hp => ?_)
      simp [Action.thread, Pc.pending] at hp
  | retire i k ptr hpc =>
      have hrec := receipts_of_not_start hcopy (by simp) i
      by_cases hj : j = k
      · subst hj
        exact (hinv i j).retire hcopy (setBags_self _ _ _ _) hrec (by simp [hpc, Pc.pending])
      · exact (hinv i j).frame hcopy (setBags_of_ne s _ (fun _ => hj)) hrec id
  | endOp i hpc =>
      refine (hinv i j).frame hcopy rfl (receipts_of_not_start hcopy (by simp) i) (fun hp => ?_)
      simp [Action.thread, Pc.pending] at hp

theorem bagInv_run {s : State F P N} {tr : List (Trans (State F P N) (Action P N))}
    (h : Run (step m) (init F P N) tr s) (i : Fin N) (j : Nat) : BagInv s i j := by
  have hboth : RingInv s ∧ ∀ i j, BagInv s i j :=
    h.invariant (I := fun s => RingInv s ∧ ∀ i j, BagInv s i j) ⟨ringInv_init, bagInv_init⟩
      (fun _ _ _ hI hs =>
        ⟨ringInv_step (step_cases hs) hI.1, bagInv_step (step_cases hs) hI.1 hI.2⟩)
  exact hboth.2 i j

/-! ## Where the nodes come from -/

/-- `e` is what a `retire` of thread `i` in the run recorded. -/
def RetiredIn (tr : List (Trans (State F P N) (Action P N))) (i : Fin N) (j : Nat)
    (e : Node P N) : Prop :=
  ∃ tr₁ y tr₂, tr = tr₁ ++ y :: tr₂ ∧ y.act = .retire i j e.ptr ∧ y.pre.node e.ptr = e

omit [F64 F] [DecidableEq P] in
theorem RetiredIn.append {tr : List (Trans (State F P N) (Action P N))} {i : Fin N} {j : Nat}
    {e : Node P N} (h : RetiredIn tr i j e) (tr' : List (Trans (State F P N) (Action P N))) :
    RetiredIn (tr ++ tr') i j e := by
  obtain ⟨tr₁, y, tr₂, rfl, hy⟩ := h
  exact ⟨tr₁, y, tr₂ ++ tr', by simp, hy⟩

/-- Every node in the bags was retired by the thread that keeps it. -/
theorem retiredIn_run {s : State F P N} {tr : List (Trans (State F P N) (Action P N))}
    (h : Run (step m) (init F P N) tr s) {u : Fin N} {j : Nat} {e : Node P N}
    (he : e ∈ (s.bags u j).nodes) : RetiredIn tr u j e := by
  induction h with
  | nil => simp [init, Bags.empty, Bags.nodes] at he
  | snoc hr hs ih =>
      rcases mem_nodes_step (step_cases hs) he with he | ⟨rfl, hnode⟩
      · exact (ih he).append _
      · exact ⟨_, _, [], rfl, rfl, hnode⟩

/-- A thread that has begun more operations has started one on the way. -/
theorem exists_startOp {s s' : State F P N} {tr : List (Trans (State F P N) (Action P N))}
    (h : Run (step m) s tr s') {u : Fin N} (hu : s.begun u < s'.begun u) :
    ∃ z ∈ tr, ∃ readOnly, z.act = .startOp u readOnly := by
  induction h with
  | nil => exact absurd hu (lt_irrefl _)
  | snoc hr hs ih =>
      rename_i s₁ s₂ a tr
      by_cases hlt : s.begun u < s₁.begun u
      · obtain ⟨z, hz, hact⟩ := ih hlt
        exact ⟨z, List.mem_append_left _ hz, hact⟩
      · have hgrow : s₁.begun u ≠ s₂.begun u := by omega
        refine ⟨_, List.mem_append_right _ (List.mem_singleton_self _), ?_⟩
        cases step_cases hs with
        | receive i readOnly | start i readOnly =>
            by_cases hui : u = i
            · subst hui
              exact ⟨readOnly, rfl⟩
            · exact absurd (by simp [State.begin, hui]) hgrow
        | _ => exact absurd rfl hgrow

/-! ## The grace period -/

theorem mem_of_poolAdd {s s' : State F P N} {i : Fin N} {e : Node P N}
    (h : step m s (.poolAdd i e) = some s') : e ∈ (s.bags i 0).deamortizedFreeables := by
  cases step_cases h with
  | poolAdd _ _ _ _ he => exact he

theorem begun_retire {s s' : State F P N} {i : Fin N} {j : Nat} {ptr : P}
    (h : step m s (.retire i j ptr) = some s') : s'.begun = s.begun := by
  cases step_cases h with
  | retire => rfl

/-- **Grace period**: a node that `startOp` hands to the pool was retired earlier in the run,
every thread has begun an operation since, and no operation in progress at the retirement is
in progress now. -/
theorem pool_add_after_grace {s : State F P N}
    {tr tr' : List (Trans (State F P N) (Action P N))} {x : Trans (State F P N) (Action P N)}
    (h : Run (step m) (init F P N) (tr ++ x :: tr') s) {i : Fin N} {e : Node P N}
    (hx : x.act = .poolAdd i e) :
    ∃ tr₁ y tr₂, tr = tr₁ ++ y :: tr₂ ∧ y.act = .retire i 0 e.ptr ∧ y.pre.node e.ptr = e
      ∧ (∀ u, ∃ z ∈ tr₂, ∃ readOnly, z.act = .startOp u readOnly)
      ∧ ∀ u n, y.pre.running u = some n → x.pre.running u ≠ some n := by
  obtain ⟨hpre, hstep, -⟩ := h.split
  have hmem : e ∈ (x.pre.bags i 0).deamortizedFreeables := mem_of_poolAdd (hx ▸ hstep)
  have haged : Aged x.pre e := (bagInv_run hpre i 0).freeable e hmem
  obtain ⟨tr₁, y, tr₂, rfl, hy, hnode⟩ :=
    retiredIn_run hpre (Multiset.mem_add.mpr (Or.inr hmem))
  obtain ⟨-, hretire, hrest⟩ := hpre.split
  have hbegun : y.post.begun = e.begunAt := by
    rw [begun_retire (hy ▸ hretire), ← hnode]
    rfl
  refine ⟨tr₁, y, tr₂, rfl, hy, hnode, fun u => ?_, fun u n hn hrun => ?_⟩
  · exact exists_startOp hrest (by rw [hbegun]; exact haged u)
  · -- the operation in progress now is the last one begun
    have hle : n ≤ e.begunAt u := by
      rw [← hnode]
      exact y.pre.running_le u n hn
    have hnow : n = x.pre.begun u := by
      unfold State.running at hrun
      split at hrun
      · cases hrun
      · exact (Option.some.inj hrun).symm
    exact absurd (haged u) (by omega)

end

/-- An operation of thread `i` that finds its token set, up to its body. -/
def roundTo (i : Fin 2) (moved : Multiset (Node ℕ 2)) : List (Action ℕ 2) :=
  [.startOp i false, .run i, .run i, .rotate i moved, .run i]

/-- The node `7`, retired in the first operation of thread `i`. -/
def firstNode (i : Fin 2) : Node ℕ 2 :=
  { ptr := 7
    begunAt := fun u => if u = i then 1 else 0
    runningAt := fun u => if u = i then some 1 else none
    running_le := by
      intro u n h
      split at h
      · cases h; simp_all
      · cases h }

/-- Thread `i` retires the node `7`; the token goes round twice. -/
def twoRounds (i u : Fin 2) : List (Action ℕ 2) :=
  roundTo i 0 ++ [.run i, .retire i 0 7, .endOp i] ++ roundTo u 0 ++ [.run u, .endOp u]
    ++ roundTo i 0 ++ [.run i, .endOp i] ++ roundTo u 0 ++ [.run u, .endOp u]
    ++ roundTo i {firstNode i}

theorem pool_add_after_grace_two_rounds :
    ∃ tr s s', Run (step 1) (init ℚ ℕ 2) (tr ++ [⟨s, .poolAdd 0 (firstNode 0), s'⟩]) s'
      ∧ ∃ tr₁ y tr₂, tr = tr₁ ++ y :: tr₂ ∧ y.act = .retire 0 0 7 ∧ y.pre.node 7 = firstNode 0
        ∧ (∀ u, ∃ z ∈ tr₂, ∃ readOnly, z.act = .startOp u readOnly)
        ∧ ∀ u n, y.pre.running u = some n → s.running u ≠ some n := by
  obtain ⟨tr, s, hrun, hp⟩ := exists_run_of_replay (step 1) (init ℚ ℕ 2) (twoRounds 0 1)
    (fun _ s => (step 1 s (.poolAdd 0 (firstNode 0))).isSome) (by decide +kernel)
  obtain ⟨s', hs'⟩ := Option.isSome_iff_exists.mp hp
  have hall := Run.snoc hrun hs'
  exact ⟨tr, s, s', hall, pool_add_after_grace hall rfl⟩

end Pacer.Reclaimer
