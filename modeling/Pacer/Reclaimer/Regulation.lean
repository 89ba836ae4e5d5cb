import Pacer.Reclaimer.Controller
import Pacer.Reclaimer.Lag
import Mathlib.Algebra.BigOperators.Group.Finset.Basic

set_option autoImplicit false

/-! # The controllers of the ring

What the controllers keep to while the threads of the ring run interleaved. The data of every
thread goes through a run of its controller alone (`thread_simulates`), so what a `startOp`
establishes and the arrival of a token keeps holds of every thread at all times
(`ring_regulated`). A `startOp` in `ConservativeHold` frees several nodes at once, but no more
than operations have skipped before it: all threads together have never handed more nodes to the
pool than they have begun operations (`pool_le_begun`).
-/

namespace Pacer.Reclaimer

open Machine

/-! ## The controller of a thread -/

namespace ThreadData

/-- The average is in range, the mode is one that selecting again would keep, and operations are
counted in `ConservativeHold` only, up to the limit. -/
structure Regulated (td : ThreadData ℚ) : Prop where
  ema : 0 ≤ td.spiEma ∧ td.spiEma < 1
  mode : pacerSelectModeHyst td.spiEma td.gcMode = td.gcMode
  ticks : td.holdTicks < pacerHoldLimit
  hold : td.holdTicks ≠ 0 → td.gcMode = .conservativeHold

theorem regulated_new (tid : Nat) : (new tid : ThreadData ℚ).Regulated where
  ema := ⟨le_rfl, zero_lt_one⟩
  mode := by
    show pacerSelectModeHyst (0 : ℚ) .aggressiveEbr = .aggressiveEbr
    decide +kernel
  ticks := by
    show 0 < pacerHoldLimit
    decide
  hold := fun h => absurd rfl h

theorem countOp_spiEma (td : ThreadData ℚ) (readOnly : Bool) :
    (td.countOp readOnly).spiEma = td.spiEma := by
  unfold countOp
  split <;> rfl

/-- The sample is folded into the average, if there is one. -/
theorem resample_ema {td : ThreadData ℚ} (h : 0 ≤ td.spiEma ∧ td.spiEma < 1) :
    0 ≤ td.resample.spiEma ∧ td.resample.spiEma < 1 := by
  unfold resample
  dsimp only
  split
  · show 0 ≤ PacerSystem.nextEma td.spiEma td.winWrites td.winSnaps
      ∧ PacerSystem.nextEma td.spiEma td.winWrites td.winSnaps < 1
    rw [PacerSystem.nextEma_eq]
    exact ⟨Ema.le_step spiEmaAlpha_pos.le spiEmaAlpha_le_one h.1 (winSpi_nonneg _ _),
      Ema.step_lt spiEmaAlpha_pos spiEmaAlpha_le_one h.2.le (winSpi_lt_one _ _)⟩
  · exact h

/-- Whatever the mode was and however many operations were skipped in it. -/
theorem regulated_select {td : ThreadData ℚ} (hema : 0 ≤ td.spiEma ∧ td.spiEma < 1) :
    td.select.1.Regulated := by
  have hagain : pacerSelectModeHyst td.spiEma (pacerSelectModeHyst td.spiEma td.gcMode)
      = pacerSelectModeHyst td.spiEma td.gcMode := by
    rw [pacerSelectModeHyst_eq, pacerSelectModeHyst_eq, select_select]
  have hpos : 0 < pacerHoldLimit := by decide
  unfold select
  generalize pacerSelectModeHyst td.spiEma td.gcMode = mode at hagain ⊢
  cases mode with
  | conservativeHold =>
      dsimp only
      split
      · exact ⟨hema, hagain, hpos, fun h => absurd rfl h⟩
      · rename_i hlt
        exact ⟨hema, hagain, not_le.mp hlt, fun _ => rfl⟩
  | aggressiveEbr | amortisedFree => exact ⟨hema, hagain, hpos, fun h => absurd rfl h⟩

theorem Regulated.startOp {td : ThreadData ℚ} (h : td.Regulated) (readOnly : Bool) :
    (td.startOp readOnly).1.Regulated := by
  refine regulated_select ?_
  have hcount : 0 ≤ (td.countOp readOnly).spiEma ∧ (td.countOp readOnly).spiEma < 1 := by
    rw [countOp_spiEma]
    exact h.ema
  unfold receive
  split
  · exact resample_ema hcount
  · exact hcount

theorem Regulated.step {td td' : ThreadData ℚ} {a : ThreadAction} (h : td.Regulated)
    (hs : threadStep td a = some td') : td'.Regulated := by
  cases a with
  | startOp readOnly =>
      cases hs
      exact h.startOp readOnly
  | tokenArrives =>
      cases hs
      exact ⟨h.ema, h.mode, h.ticks, h.hold⟩

end ThreadData

/-! ## The threads of the ring -/

/-- The thread is not between the first and the last step of its controller. -/
def Pc.outside : Pc → Bool
  | .idle | .drain _ | .body => true
  | .clearToken | .setNext | .rotate _ | .select => false

section

variable {P : Type} [DecidableEq P] {N m : Nat}

/-- **Every controller stays regulated**, in every reachable state of the ring and whatever the
other threads do: outside of the controller's part of a `startOp` the average is in `[0, 1)`, the
mode is one of those that the hysteresis allows at this average, and `hold_ticks` is below its
limit and `0` outside of `ConservativeHold`. A thread in the middle of that part will leave it
so. -/
theorem ring_regulated {s : State ℚ P N} {tr : List (Trans (State ℚ P N) (Action P N))}
    (h : Run (step m) (init ℚ P N) tr s) (i : Fin N) :
    (s.completed i).Regulated
      ∧ ((s.pc i).outside = true → (s.threadData i).Regulated) := by
  obtain ⟨tr', hrun⟩ := thread_simulates h i
  have hdone : (s.completed i).Regulated :=
    hrun.invariant (ThreadData.regulated_new i.val) (fun _ _ _ hI hs => hI.step hs)
  refine ⟨hdone, fun hout => ?_⟩
  rw [State.completed] at hdone
  generalize s.pc i = p at hout hdone
  cases p with
  | idle | drain | body => exact hdone
  | clearToken | setNext | rotate | select => cases hout

end

/-- A read-only operation of thread `i` without the token. -/
def readWith (i : Fin 2) (handedOver body : List (Action ℕ 2)) : List (Action ℕ 2) :=
  [.startOp i true, .run i] ++ handedOver ++ [.run i] ++ body ++ [.endOp i]

/-- A read-only operation of thread `i` that hands on the token. -/
def handOn (i : Fin 2) (moved : Multiset (Node ℕ 2)) : List (Action ℕ 2) :=
  [.startOp i true, .run i, .run i, .rotate i moved, .run i, .run i, .endOp i]

/-- The token goes round once; thread `i` makes three operations before it hands it on. -/
def readPeriodWith (i u : Fin 2) (body : List (Action ℕ 2)) (moved : Multiset (Node ℕ 2)) :
    List (Action ℕ 2) :=
  readWith i [] body ++ readWith i [] [] ++ readWith i [] [] ++ handOn u 0 ++ handOn i moved

/-- Retired by thread `i` in its 34th operation, while the other one is between two. -/
def lateNode (i : Fin 2) (ptr : ℕ) : Node ℕ 2 :=
  { ptr := ptr
    begunAt := fun u => if u = i then 34 else 8
    runningAt := fun u => if u = i then some 34 else none
    running_le := by
      intro u n h
      split at h
      · cases h; simp_all
      · cases h }

/-- The reads of thread `i` bring it into `ConservativeHold`, with three nodes free. -/
def holdRun (i u : Fin 2) : List (Action ℕ 2) :=
  handOn i 0 ++ (List.replicate 8 (readPeriodWith i u [] 0)).flatten
    ++ readPeriodWith i u [.retire i 0 1, .retire i 0 2, .retire i 0 3] 0
    ++ readPeriodWith i u [] {lateNode i 1, lateNode i 2, lateNode i 3} ++ readPeriodWith i u [] 0

/-- Five operations of thread 0 have been skipped. -/
theorem ring_regulated_hold :
    ∃ (tr : List (Trans (State ℚ ℕ 2) (Action ℕ 2))) (s : State ℚ ℕ 2),
      Run (step 1) (init ℚ ℕ 2) tr s ∧ (s.threadData 0).holdTicks = 5
        ∧ (s.threadData 0).Regulated := by
  obtain ⟨tr, s, hrun, hp⟩ := exists_run_of_replay (step 1) (init ℚ ℕ 2) (holdRun 0 1)
    (fun _ s => decide ((s.threadData 0).holdTicks = 5) && (s.pc 0).outside) (by decide +kernel)
  simp only [Bool.and_eq_true, decide_eq_true_eq] at hp
  exact ⟨tr, s, hrun, hp.1, (ring_regulated hrun 0).2 hp.2⟩

/-! ## The nodes handed over -/

/-- The nodes that the operation may still hand over; one before it has selected. -/
def Pc.due : Pc → Nat
  | .idle | .body => 0
  | .clearToken | .setNext | .rotate _ | .select => 1
  | .drain k => k

theorem Pc.due_rotateFrom (m j : Nat) : (rotateFrom m j).due = 1 := by
  unfold rotateFrom
  split <;> rfl

section

variable {F P : Type} [F64 F] [DecidableEq P] {N m : Nat}

/-- The nodes that thread `i` may hand over for the operations it has begun. -/
def State.allowance (s : State F P N) (i : Fin N) : Nat :=
  (s.threadData i).holdTicks + (s.pc i).due

/-- What was handed over and what may be is covered by the operations begun. -/
def Covered (s : State F P N) : Prop := s.pool.card + ∑ i, s.allowance i ≤ ∑ i, s.begun i

omit [DecidableEq P] in
theorem covered_init : Covered (init F P N) := by
  have hnone : ∀ i, (init F P N).allowance i = 0 := fun _ => rfl
  unfold Covered
  simp only [hnone, Finset.sum_const_zero]
  exact Nat.zero_le _

omit [F64 F] [DecidableEq P] in
/-- A step of thread `i` is accounted for by its own operations. -/
theorem Covered.of_thread {s s' : State F P N} (i : Fin N) (h : Covered s)
    (hothers : ∀ u, u ≠ i → s'.allowance u = s.allowance u ∧ s'.begun u = s.begun u)
    (hself : s'.pool.card + s'.allowance i + s.begun i
      ≤ s.pool.card + s.allowance i + s'.begun i) : Covered s' := by
  have hsplit : ∀ f : Fin N → Nat, ∑ u, f u = f i + ∑ u ∈ Finset.univ.erase i, f u :=
    fun f => (Finset.add_sum_erase _ f (Finset.mem_univ i)).symm
  have hallowance : ∑ u ∈ Finset.univ.erase i, s'.allowance u
      = ∑ u ∈ Finset.univ.erase i, s.allowance u :=
    Finset.sum_congr rfl fun u hu => (hothers u (Finset.ne_of_mem_erase hu)).1
  have hbegun : ∑ u ∈ Finset.univ.erase i, s'.begun u = ∑ u ∈ Finset.univ.erase i, s.begun u :=
    Finset.sum_congr rfl fun u hu => (hothers u (Finset.ne_of_mem_erase hu)).2
  unfold Covered at h ⊢
  rw [hsplit s.allowance, hsplit s.begun] at h
  rw [hsplit s'.allowance, hsplit s'.begun, hallowance, hbegun]
  omega

/-- The selection spends what it grants. -/
theorem ThreadData.select_spends (td : ThreadData F) :
    td.select.1.holdTicks + td.select.2 ≤ td.holdTicks + 1 := by
  rcases td.select_cases with ⟨-, ht, hk⟩ | ⟨-, ht, hk⟩ | ⟨hge, ht, hk⟩
  · omega
  · omega
  · omega

omit [F64 F] [DecidableEq P] in
/-- A step of thread `i` to `q` that leaves `hold_ticks` alone. -/
theorem Covered.of_move {s s' : State F P N} {i : Fin N} {q : Pc} (h : Covered s)
    (hticks : ∀ u, (s'.threadData u).holdTicks = (s.threadData u).holdTicks)
    (hpc : s'.pc = Function.update s.pc i q)
    (hothers : ∀ u, u ≠ i → s'.begun u = s.begun u)
    (hself : s'.pool.card + q.due + s.begun i ≤ s.pool.card + (s.pc i).due + s'.begun i) :
    Covered s' := by
  refine h.of_thread i (fun u hu => ⟨?_, hothers u hu⟩) ?_
  · rw [State.allowance, State.allowance, hticks, hpc, Function.update_of_ne hu]
  · rw [State.allowance, State.allowance, hticks, hpc, Function.update_self]
    omega

omit [F64 F] [DecidableEq P] in
/-- An update of one thread's data that keeps its `hold_ticks`. -/
theorem holdTicks_update {s : State F P N} {i : Fin N} {td : ThreadData F}
    (h : td.holdTicks = (s.threadData i).holdTicks) (u : Fin N) :
    (Function.update s.threadData i td u).holdTicks = (s.threadData u).holdTicks := by
  by_cases hu : u = i
  · subst hu
    rw [Function.update_self, h]
  · rw [Function.update_of_ne hu]

omit [DecidableEq P] in
/-- The stores of a receipt and its sample do not touch `hold_ticks`. -/
theorem holdTicks_passed (s : State F P N) (i u : Fin N) :
    (s.passed i u).holdTicks = (s.threadData u).holdTicks := by
  have hset : ∀ td : ThreadData F, td.holdTicks = (s.threadData (next i)).holdTicks →
      (Function.update s.threadData (next i) td u).holdTicks = (s.threadData u).holdTicks :=
    fun td h => holdTicks_update h u
  unfold State.passed
  by_cases hu : u = i
  · subst hu
    rw [Function.update_self, ThreadData.resample_holdTicks]
    exact hset _ rfl
  · rw [Function.update_of_ne hu]
    exact hset _ rfl

omit [DecidableEq P] [F64 F] in
/-- An operation begins, and with it one node more may be handed over. -/
theorem Covered.begin {s : State F P N} {i : Fin N} {readOnly : Bool} {q : Pc} (h : Covered s)
    (hpc : s.pc i = .idle) (hq : q.due = 1) : Covered (s.begin i readOnly q) := by
  refine h.of_move (i := i) (q := q)
    (holdTicks_update (ThreadData.countOp_holdTicks ..)) rfl
    (fun u hu => Function.update_of_ne hu ..) ?_
  have hbegun : (s.begin i readOnly q).begun i = s.begun i + 1 := Function.update_self ..
  rw [hbegun, hpc, hq]
  show s.pool.card + 1 + s.begun i ≤ s.pool.card + 0 + (s.begun i + 1)
  omega

theorem covered_step {s s' : State F P N} {a : Action P N} (h : Covered s)
    (hs : Stepped m s a s') : Covered s' := by
  cases hs with
  | receive i readOnly hpc ht => exact h.begin hpc rfl
  | start i readOnly hpc ht => exact h.begin hpc rfl
  | clear i hpc =>
      refine h.of_move (i := i) (q := .setNext) (holdTicks_update rfl) rfl (fun _ _ => rfl) ?_
      rw [hpc]
      exact le_rfl
  | pass i hpc =>
      refine h.of_move (i := i) (q := rotateFrom m 0) (holdTicks_passed s i) rfl
        (fun _ _ => rfl) ?_
      rw [hpc, Pc.due_rotateFrom]
      exact le_rfl
  | rotate i j moved hpc hm =>
      refine h.of_move (i := i) (q := rotateFrom m (j + 1)) (fun _ => rfl) rfl
        (fun _ _ => rfl) ?_
      rw [hpc, Pc.due_rotateFrom]
      exact le_rfl
  | select i hpc =>
      refine h.of_thread i (fun u hu => ⟨?_, rfl⟩) ?_
      · simp only [State.allowance, State.advance, Function.update_of_ne hu]
      · have hspent := (s.threadData i).select_spends
        simp only [State.allowance, State.advance, Function.update_self, hpc, Pc.due]
        omega
  | poolAdd i k e hpc he =>
      -- the node counts as handed over instead of due
      refine h.of_move (i := i) (q := .drain k) (fun _ => rfl) rfl (fun _ _ => rfl) ?_
      rw [hpc]
      simp only [Multiset.card_cons, Pc.due]
      omega
  | enter i k hpc =>
      refine h.of_move (i := i) (q := .body) (fun _ => rfl) rfl (fun _ _ => rfl) ?_
      rw [hpc]
      simp only [Pc.due]
      omega
  | retire i j ptr hpc => exact h
  | endOp i hpc =>
      refine h.of_move (i := i) (q := .idle) (fun _ => rfl) rfl (fun _ _ => rfl) ?_
      rw [hpc]
      exact le_rfl

/-! ## One operation -/

theorem ThreadData.select_le (td : ThreadData F) : td.select.2 ≤ pacerHoldLimit := by
  have hlimit : pacerHoldLimit = 8 := rfl
  rcases td.select_cases with ⟨-, -, hk⟩ | ⟨-, -, hk⟩ | ⟨-, -, hk⟩
  · omega
  · omega
  · omega

/-- No operation may hand over more nodes than the limit. -/
def DueLimited (s : State F P N) : Prop := ∀ i, (s.pc i).due ≤ pacerHoldLimit

omit [F64 F] [DecidableEq P] in
theorem DueLimited.of_move {s s' : State F P N} {i : Fin N} {q : Pc} (h : DueLimited s)
    (hpc : s'.pc = Function.update s.pc i q) (hq : q.due ≤ pacerHoldLimit) : DueLimited s' := by
  intro u
  rw [hpc]
  by_cases hu : u = i
  · subst hu
    rw [Function.update_self]
    exact hq
  · rw [Function.update_of_ne hu]
    exact h u

theorem dueLimited_step {s s' : State F P N} {a : Action P N} (h : DueLimited s)
    (hs : Stepped m s a s') : DueLimited s' := by
  have hone : 1 ≤ pacerHoldLimit := by decide
  cases hs with
  | receive | start | clear => exact h.of_move rfl hone
  | pass | rotate => exact h.of_move rfl (by rw [Pc.due_rotateFrom]; exact hone)
  | select i hpc => exact h.of_move rfl (s.threadData i).select_le
  | poolAdd i k e hpc he =>
      have hk := h i
      rw [hpc] at hk
      exact h.of_move rfl (Nat.le_of_succ_le hk)
  | enter | endOp => exact h.of_move rfl (Nat.zero_le _)
  | retire => exact h

/-- **No more nodes are handed over than operations begun**, in every reachable state and
whatever the modes were: a batch is handed over only for operations that were skipped. One
operation hands over at most `PACER_HOLD_LIMIT` nodes. -/
theorem pool_le_begun {s : State F P N} {tr : List (Trans (State F P N) (Action P N))}
    (h : Run (step m) (init F P N) tr s) :
    s.pool.card ≤ ∑ i, s.begun i ∧ ∀ i k, s.pc i = .drain k → k ≤ pacerHoldLimit := by
  have hcovered : Covered s :=
    h.invariant covered_init (fun _ _ _ hI hs => covered_step hI (step_cases hs))
  have hlimited : DueLimited s :=
    h.invariant (fun _ => Nat.zero_le _) (fun _ _ _ hI hs => dueLimited_step hI (step_cases hs))
  refine ⟨(Nat.le_add_right _ _).trans hcovered, fun i k hpc => ?_⟩
  have hdue := hlimited i
  rw [hpc] at hdue
  exact hdue

end

/-- Two more operations are skipped, and the next one hands over all three nodes. -/
theorem pool_le_begun_batch :
    ∃ (tr : List (Trans (State ℚ ℕ 2) (Action ℕ 2))) (s : State ℚ ℕ 2),
      Run (step 1) (init ℚ ℕ 2) tr s ∧ s.pool.card = 3 ∧ s.pool.card ≤ ∑ i, s.begun i := by
  obtain ⟨tr, s, hrun, hp⟩ := exists_run_of_replay (step 1) (init ℚ ℕ 2)
    (holdRun 0 1 ++ readWith 0 [] [] ++ readWith 0 [] [] ++ readWith 0
      [.poolAdd 0 (lateNode 0 1), .poolAdd 0 (lateNode 0 2), .poolAdd 0 (lateNode 0 3)] [])
    (fun _ s => decide (s.pool.card = 3)) (by decide +kernel)
  exact ⟨tr, s, hrun, of_decide_eq_true hp, (pool_le_begun hrun).1⟩

end Pacer.Reclaimer
