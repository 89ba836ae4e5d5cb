import Pacer.Reclaimer.Thread

set_option autoImplicit false

/-! # The gated drain beside the plain one

A thread of `reclaimer_pacer` runs in lockstep with a reference that retires the same nodes and
makes the same rotations, but frees one node of a nonempty `deamortizedFreeables` in every
`startOp`. While the mode is `ConservativeHold` the thread owes one node for each of its
`hold_ticks`; the eighth tick pays them back. The debt is forgotten when the mode changes in
between: `hold_ticks` goes back to `0` and nothing is freed for it. Where no `startOp` forgets a
debt the lag stays within `PACER_HOLD_LIMIT`; two phases that do put it above.
-/

namespace Pacer.Reclaimer

open Machine

/-! ## Lockstep -/

namespace Bags

variable {E : Type} [DecidableEq E]

/-- `startOp`'s rotation, on receipt of the token. -/
def rotateIf (b : Bags E) (received : Prop) [Decidable received] (moved : Multiset E) : Bags E :=
  if received then b.rotateEpochBags moved else b

/-- `freed` is what `k` calls of `deamortizedFreeables->remove()` may take, made until the bag
is empty. -/
def Frees (b : Bags E) (k : Nat) (freed : Multiset E) : Prop :=
  freed ≤ b.deamortizedFreeables ∧ freed.card = min k b.deamortizedFreeables.card

instance (b : Bags E) (k : Nat) (freed : Multiset E) : Decidable (b.Frees k freed) :=
  inferInstanceAs (Decidable (_ ∧ _))

def removeAll (b : Bags E) (freed : Multiset E) : Bags E :=
  { b with deamortizedFreeables := b.deamortizedFreeables - freed }

theorem card_removeAll {b : Bags E} {k : Nat} {freed : Multiset E} (h : b.Frees k freed) :
    (b.removeAll freed).deamortizedFreeables.card = b.deamortizedFreeables.card - k := by
  show (b.deamortizedFreeables - freed).card = _
  rw [Multiset.card_sub h.1, h.2]
  omega

theorem card_rotateIf (b : Bags E) (received : Prop) [Decidable received] (moved : Multiset E) :
    (b.rotateIf received moved).deamortizedFreeables.card
      = b.deamortizedFreeables.card + if received then moved.card else 0 := by
  unfold rotateIf
  split
  · exact Multiset.card_add _ _
  · rfl

end Bags

/-- A thread, its bags and the bags of the reference. -/
structure Lockstep (F E : Type) where
  td : ThreadData F
  bags : Bags E
  plain : Bags E

inductive LockstepAction (E : Type) where
  | tokenArrives
  | retire (e : E)
  /-- `moved` are the full blocks, `freed` and `plainFreed` what the two take from their
  `deamortizedFreeables`. -/
  | startOp (readOnly : Bool) (moved freed plainFreed : Multiset E)

section

variable {F E : Type} [F64 F] [DecidableEq E]

namespace Lockstep

def init (F E : Type) [F64 F] [DecidableEq E] (tid : Nat) : Lockstep F E :=
  { td := ThreadData.new tid, bags := Bags.empty, plain := Bags.empty }

def step (s : Lockstep F E) : LockstepAction E → Option (Lockstep F E)
  | .tokenArrives => some { s with td := s.td.tokenArrives }
  | .retire e => some { s with bags := s.bags.retire e, plain := s.plain.retire e }
  | .startOp readOnly moved freed plainFreed =>
      let r := s.td.startOp readOnly
      let bags := s.bags.rotateIf (s.td.token ≠ 0) moved
      let plain := s.plain.rotateIf (s.td.token ≠ 0) moved
      if moved ≤ s.bags.last ∧ bags.Frees r.2 freed ∧ plain.Frees 1 plainFreed then
        some { td := r.1, bags := bags.removeAll freed, plain := plain.removeAll plainFreed }
      else none

/-- The nodes waiting in the thread's `deamortizedFreeables`. -/
def backlog (s : Lockstep F E) : Nat := s.bags.deamortizedFreeables.card

/-- The nodes waiting in that of the reference. -/
def plainBacklog (s : Lockstep F E) : Nat := s.plain.deamortizedFreeables.card

/-- The mode that `startOp` selects. -/
def nextMode (s : Lockstep F E) (readOnly : Bool) : GcMode :=
  pacerSelectModeHyst (s.td.countOp readOnly).receive.spiEma s.td.gcMode

/-- `startOp` leaves `ConservativeHold` between two firings of the safety valve. -/
def Forgets (s : Lockstep F E) (readOnly : Bool) : Prop :=
  s.td.holdTicks ≠ 0 ∧ s.nextMode readOnly ≠ .conservativeHold

instance (s : Lockstep F E) (readOnly : Bool) : Decidable (s.Forgets readOnly) :=
  inferInstanceAs (Decidable (_ ∧ _))

end Lockstep

/-- A `startOp` that leaves `ConservativeHold` with a debt finds, after its rotation, at most one
node more than the reference (of two nodes, the reference may have none). -/
def KeepsPace (x : Trans (Lockstep F E) (LockstepAction E)) : Prop :=
  match x.act with
  | .startOp readOnly moved _ _ =>
      x.pre.Forgets readOnly →
        (x.pre.bags.rotateIf (x.pre.td.token ≠ 0) moved).deamortizedFreeables.card
          ≤ max (x.pre.plain.rotateIf (x.pre.td.token ≠ 0) moved).deamortizedFreeables.card 1 + 1
  | .tokenArrives | .retire _ => True

instance (x : Trans (Lockstep F E) (LockstepAction E)) : Decidable (KeepsPace x) :=
  match x with
  | ⟨_, .startOp _ _ _ _, _⟩ => inferInstanceAs (Decidable (_ → _))
  | ⟨_, .tokenArrives, _⟩ | ⟨_, .retire _, _⟩ => inferInstanceAs (Decidable True)

/-! ## What `startOp` does to the debt -/

namespace ThreadData

omit [F64 F] in
@[simp] theorem countOp_holdTicks (td : ThreadData F) (readOnly : Bool) :
    (td.countOp readOnly).holdTicks = td.holdTicks := by
  unfold countOp
  split <;> rfl

omit [F64 F] in
@[simp] theorem countOp_gcMode (td : ThreadData F) (readOnly : Bool) :
    (td.countOp readOnly).gcMode = td.gcMode := by
  unfold countOp
  split <;> rfl

@[simp] theorem resample_holdTicks (td : ThreadData F) :
    td.resample.holdTicks = td.holdTicks := by
  unfold resample
  dsimp only
  split <;> rfl

@[simp] theorem resample_gcMode (td : ThreadData F) : td.resample.gcMode = td.gcMode := by
  unfold resample
  dsimp only
  split <;> rfl

@[simp] theorem receive_holdTicks (td : ThreadData F) : td.receive.holdTicks = td.holdTicks := by
  unfold receive
  split
  · exact resample_holdTicks _
  · rfl

@[simp] theorem receive_gcMode (td : ThreadData F) : td.receive.gcMode = td.gcMode := by
  unfold receive
  split
  · exact resample_gcMode _
  · rfl

/-- The three outcomes of the selection: free one node, skip, or fire the safety valve. -/
theorem select_cases (td : ThreadData F) :
    (pacerSelectModeHyst td.spiEma td.gcMode ≠ .conservativeHold
        ∧ td.select.1.holdTicks = 0 ∧ td.select.2 = 1)
      ∨ (td.holdTicks + 1 < pacerHoldLimit
        ∧ td.select.1.holdTicks = td.holdTicks + 1 ∧ td.select.2 = 0)
      ∨ (pacerHoldLimit ≤ td.holdTicks + 1
        ∧ td.select.1.holdTicks = 0 ∧ td.select.2 = pacerHoldLimit) := by
  unfold select
  dsimp only
  cases pacerSelectModeHyst td.spiEma td.gcMode with
  | conservativeHold =>
      right
      dsimp only
      by_cases h : td.holdTicks + 1 ≥ pacerHoldLimit
      · rw [if_pos h]
        exact Or.inr ⟨h, rfl, rfl⟩
      · rw [if_neg h]
        exact Or.inl ⟨by omega, rfl, rfl⟩
  | aggressiveEbr | amortisedFree => exact Or.inl ⟨by decide, rfl, rfl⟩

end ThreadData

/-! ## The invariant of the lag -/

/-- The lag is at most one node more than the debt, which is below the limit. -/
structure LagInv (s : Lockstep F E) : Prop where
  ticks : s.td.holdTicks < pacerHoldLimit
  lag : s.backlog ≤ s.plainBacklog + 1 + s.td.holdTicks

omit [F64 F] [DecidableEq E] in
theorem LagInv.le_limit {s : Lockstep F E} (h : LagInv s) :
    s.backlog ≤ s.plainBacklog + pacerHoldLimit := by
  have := h.lag
  have := h.ticks
  omega

theorem lagInv_init (tid : Nat) : LagInv (Lockstep.init F E tid) := by
  constructor
  · show 0 < pacerHoldLimit
    decide
  · exact Nat.zero_le _

omit [DecidableEq E] in
/-- One `startOp`, on the two backlogs after the rotation. -/
theorem lagInv_startOp {s : Lockstep F E} {readOnly : Bool} {d r : Nat} (hs : LagInv s)
    (hlag : d ≤ r + 1 + s.td.holdTicks) (hkeep : s.Forgets readOnly → d ≤ max r 1 + 1) :
    (s.td.startOp readOnly).1.holdTicks < pacerHoldLimit
      ∧ d - (s.td.startOp readOnly).2 ≤ r - 1 + 1 + (s.td.startOp readOnly).1.holdTicks := by
  have hlimit : pacerHoldLimit = 8 := rfl
  have hticks := hs.ticks
  have hpre : (s.td.countOp readOnly).receive.holdTicks = s.td.holdTicks := by simp
  rcases ThreadData.select_cases (s.td.countOp readOnly).receive with
    ⟨hmode, ht, hk⟩ | ⟨hlt, ht, hk⟩ | ⟨hge, ht, hk⟩
  · -- the mode is not `ConservativeHold`: what is owed is either nothing or forgotten
    rw [ThreadData.startOp, ht, hk]
    refine ⟨by omega, ?_⟩
    by_cases h0 : s.td.holdTicks = 0
    · omega
    · have hmode' : s.nextMode readOnly ≠ .conservativeHold := by
        simpa [Lockstep.nextMode] using hmode
      have := hkeep ⟨h0, hmode'⟩
      omega
  · rw [ThreadData.startOp, ht, hk]
    omega
  · rw [ThreadData.startOp, ht, hk]
    omega

theorem lagInv_step {s s' : Lockstep F E} {a : LockstepAction E} (hs : LagInv s)
    (h : s.step a = some s') (hkeep : KeepsPace ⟨s, a, s'⟩) : LagInv s' := by
  cases a with
  | tokenArrives =>
      cases h
      exact ⟨hs.ticks, hs.lag⟩
  | retire e =>
      cases h
      exact ⟨hs.ticks, hs.lag⟩
  | startOp readOnly moved freed plainFreed =>
      simp only [Lockstep.step] at h
      split at h
      · rename_i hguard
        obtain ⟨-, hfreed, hplain⟩ := hguard
        cases h
        have hlag := hs.lag
        unfold Lockstep.backlog Lockstep.plainBacklog at hlag
        -- both rotations move the same nodes
        have hrotated : (s.bags.rotateIf (s.td.token ≠ 0) moved).deamortizedFreeables.card
            ≤ (s.plain.rotateIf (s.td.token ≠ 0) moved).deamortizedFreeables.card
              + 1 + s.td.holdTicks := by
          rw [Bags.card_rotateIf, Bags.card_rotateIf]
          omega
        obtain ⟨hticks, hstep⟩ := lagInv_startOp hs hrotated hkeep
        refine ⟨hticks, ?_⟩
        unfold Lockstep.backlog Lockstep.plainBacklog
        rw [Bags.card_removeAll hfreed, Bags.card_removeAll hplain]
        exact hstep
      · cases h

/-- **The drain keeps up where no debt is forgotten**: in a run all of whose steps keep pace,
`deamortizedFreeables` never holds more than `PACER_HOLD_LIMIT` nodes above the reference. -/
theorem lag_le_holdLimit {tid : Nat} {s : Lockstep F E}
    {tr : List (Trans (Lockstep F E) (LockstepAction E))}
    (h : Run Lockstep.step (Lockstep.init F E tid) tr s) (hkeep : ∀ x ∈ tr, KeepsPace x) :
    ∀ r ∈ visited (Lockstep.init F E tid) tr, r.backlog ≤ r.plainBacklog + pacerHoldLimit := by
  intro r hr
  obtain ⟨tr₁, tr₂, rfl, hrun⟩ := h.prefix_of_visited hr
  have hinv : LagInv r := hrun.invariant_of
    (fun x hx => hkeep x (List.mem_append_left _ hx)) (lagInv_init tid)
    (fun _ _ _ hI hs hC => lagInv_step hI hs hC)
  exact hinv.le_limit

end

/-! ## Two phases -/

/-- Four read-only operations of a thread with nothing to free, the last one with the token. -/
def readWindow : List (LockstepAction ℕ) :=
  List.replicate 3 (.startOp true 0 0 0) ++ [.tokenArrives, .startOp true 0 0 0]

/-- Thirty retired nodes become free in the operation that begins a phase of
`ConservativeHold`; seven operations skip their node. -/
def firstHold : List (LockstepAction ℕ) :=
  (List.replicate 9 readWindow).flatten ++ (List.range 30).map .retire ++ readWindow
    ++ List.replicate 3 (.startOp true 0 0 0)
    ++ [.tokenArrives, .startOp true (Multiset.range 30) 0 {0}, .startOp false 0 0 {1},
      .startOp false 0 0 {2}, .tokenArrives, .startOp false 0 0 {3}, .startOp false 0 0 {4},
      .startOp false 0 0 {5}, .startOp false 0 0 {6}]

/-- The writes end the phase, reads begin the next one, and two more operations skip. -/
def secondHold : List (LockstepAction ℕ) :=
  [.tokenArrives, .startOp false 0 {0} {7}]
    ++ (List.range 19).flatMap (fun i =>
      (if i % 4 = 3 then [.tokenArrives] else []) ++ [.startOp true 0 {i + 1} {i + 8}])
    ++ [.tokenArrives, .startOp true 0 0 {27}, .startOp true 0 0 {28}]

theorem lag_le_holdLimit_one_phase :
    ∃ tr s, Run Lockstep.step (Lockstep.init ℚ ℕ 1) tr s ∧ s.backlog = s.plainBacklog + 7
      ∧ ∀ r ∈ visited (Lockstep.init ℚ ℕ 1) tr,
          r.backlog ≤ r.plainBacklog + pacerHoldLimit := by
  obtain ⟨tr, s, hrun, hp⟩ := exists_run_of_replay Lockstep.step (Lockstep.init ℚ ℕ 1)
    firstHold (fun tr s => decide (s.backlog = s.plainBacklog + 7 ∧ ∀ x ∈ tr, KeepsPace x))
    (by decide +kernel)
  obtain ⟨hlag, hkeep⟩ := of_decide_eq_true hp
  exact ⟨tr, s, hrun, hlag, lag_le_holdLimit hrun hkeep⟩

/-- After two phases of `ConservativeHold`, left and entered again, nine more nodes wait than in
the reference. -/
theorem lag_above_holdLimit :
    ∃ tr s, Run Lockstep.step (Lockstep.init ℚ ℕ 1) tr s
      ∧ s.plainBacklog + pacerHoldLimit < s.backlog := by
  obtain ⟨tr, s, hrun, hp⟩ := exists_run_of_replay Lockstep.step (Lockstep.init ℚ ℕ 1)
    (firstHold ++ secondHold) (fun _ s => decide (s.plainBacklog + pacerHoldLimit < s.backlog))
    (by decide +kernel)
  exact ⟨tr, s, hrun, of_decide_eq_true hp⟩

end Pacer.Reclaimer
