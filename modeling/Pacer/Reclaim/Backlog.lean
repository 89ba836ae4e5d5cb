import Pacer.Core.PacerSystem
import Pacer.Lib.Run

set_option autoImplicit false

/-! # The backlog of a thread that nothing pins

One thread writes and takes snapshots while the other threads do whatever they like to the
shared state in between. As long as no snapshot is announced when the thread scans, every
node in its bag is eligible, and the only thing that holds nodes back is `ConservativeHold`.
Its safety valve fires on every `holdLimit`-th tick. A window has a multiple of `holdLimit`
ticks, and modes change only at window boundaries, so a hold phase never ends between two
firings (`Aligned`), and the drains that a phase skips are made up before it ends.
-/

namespace Pacer.Reclaim

open Machine

/-- The shared state, the thread, and whether the thread is between `write_op_prepare` and
`post_write`. -/
structure State (F P : Type) where
  sys : PacerSystem F
  tls : ThreadLocalState F P
  writing : Bool

inductive Action (F P : Type) where
  | prepare
  | postWrite (oldPtr : P) (oldTs : Nat)
  | takeSnapshot (nowNs elapsed : Nat)
  | release
  /-- Other threads leave the shared state as `sys`. -/
  | others (sys : PacerSystem F)

section

variable {F P : Type} [F64 F]

def step (s : State F P) : Action F P → Option (State F P)
  | .prepare =>
      if s.writing then none
      else
        let r := s.sys.writeOpPrepare s.tls ()
        some ⟨r.1, r.2.1, true⟩
  | .postWrite oldPtr oldTs =>
      if s.writing then
        (s.sys.postWrite s.tls oldPtr oldTs).map fun r => ⟨r.1, r.2.1, false⟩
      else none
  | .takeSnapshot nowNs elapsed =>
      (s.sys.takeSnapshot s.tls nowNs elapsed).map fun r => ⟨r.1, r.2.1, s.writing⟩
  | .release =>
      (s.sys.releaseSnapshotFor s.tls).map fun sys => { s with sys := sys }
  | .others sys => some { s with sys := sys }

/-- A `post_write` of a node born before `u64::MAX`, at which no snapshot is announced. -/
def Unpinned (x : Trans (State F P) (Action F P)) : Prop :=
  match x.act with
  | .postWrite _ oldTs => oldTs < u64Max
      ∧ ∀ i < x.pre.sys.announce.activeCount, x.pre.sys.announce.slots i = 0
  | _ => True

instance : (x : Trans (State F P) (Action F P)) → Decidable (Unpinned x)
  | ⟨s, .postWrite _ oldTs, _⟩ => inferInstanceAs (Decidable (oldTs < u64Max
      ∧ ∀ i < s.sys.announce.activeCount, s.sys.announce.slots i = 0))
  | ⟨_, .prepare, _⟩ => isTrue trivial
  | ⟨_, .takeSnapshot _ _, _⟩ => isTrue trivial
  | ⟨_, .release, _⟩ => isTrue trivial
  | ⟨_, .others _, _⟩ => isTrue trivial

/-- The number of writes the thread has finished. -/
def finished (s : State F P) : Nat := s.tls.opCounter - s.writing.toNat

/-- The hold counter counts the finished writes modulo `holdLimit` in `ConservativeHold`, and
is `0` in the other modes. -/
def Aligned (s : State F P) : Prop :=
  s.tls.holdTicks
    = if s.tls.gcMode = .conservativeHold then finished s % holdLimit else 0

/-- The invariant of a run that started with `B` nodes in the bag. -/
structure Bounded (B : Nat) (s : State F P) : Prop where
  eligible : ∀ e ∈ s.tls.limboBag.q, e.1 < u64Max
  counted : s.writing = true → 0 < s.tls.opCounter
  aligned : Aligned s
  backlog : s.tls.limboBag.len ≤ B + s.tls.holdTicks

omit [F64 F] in
theorem Bounded.holdTicks_lt {B : Nat} {s : State F P} (h : Bounded B s) :
    s.tls.holdTicks < holdLimit := by
  rw [h.aligned]
  split
  · exact Nat.mod_lt _ (by decide)
  · decide

/-- A tick in the arm of `mode` lets the backlog grow by no more than the hold counter. -/
theorem tick_backlog (mode : GcMode) (hold len B : Nat) (hh : hold < holdLimit)
    (hm : mode ≠ .conservativeHold → hold = 0) (h : len ≤ B + hold) :
    len + 1 - tickBudget mode hold ≤ B + tickHold mode hold := by
  unfold holdLimit at hh
  cases mode with
  | aggressiveEbr =>
      have := hm (by decide)
      simp only [tickBudget, tickHold, aggressiveDrainPerOp]
      omega
  | amortisedFree =>
      have := hm (by decide)
      simp only [tickBudget, tickHold, afBatchK]
      omega
  | conservativeHold =>
      by_cases hfire : hold + 1 ≥ holdLimit
      · simp only [tickBudget, tickHold, if_pos hfire]
        unfold holdLimit at *
        omega
      · simp only [tickBudget, tickHold, if_neg hfire]
        omega

/-- The counter after a tick counts one more write; at a window boundary it is `0`. -/
theorem tick_hold (mode : GcMode) (k : Nat) :
    let hold := if mode = .conservativeHold then k % holdLimit else 0
    (tickHold mode hold = if mode = .conservativeHold then (k + 1) % holdLimit else 0)
      ∧ ((k + 1) % windowSize = 0 → tickHold mode hold = 0) := by
  cases mode with
  | aggressiveEbr => simp [tickHold]
  | amortisedFree => simp [tickHold]
  | conservativeHold =>
      simp only [if_true, tickHold, holdLimit, windowSize]
      constructor
      · split <;> omega
      · intro h
        split <;> omega

theorem bounded_postWrite {B : Nat} {s s' : State F P} {oldPtr : P} {oldTs : Nat}
    (h : Bounded B s) (hs : step s (.postWrite oldPtr oldTs) = some s')
    (hun : Unpinned ⟨s, .postWrite oldPtr oldTs, s'⟩) : Bounded B s' := by
  obtain ⟨hts, hidle⟩ := hun
  simp only [step] at hs
  split at hs
  · rename_i hw
    obtain ⟨⟨sys', t', freed⟩, hpost, rfl⟩ := Option.map_eq_some_iff.mp hs
    obtain ⟨safeTs, hsafe, -, hbag, hhold, hop, -, hmode, -⟩ := PacerSystem.postWrite_spec hpost
    -- nobody holds a snapshot, so every node is eligible and the drain takes its whole budget
    obtain rfl : safeTs = u64Max := AnnouncementTable.minActiveTs_of_idle hsafe hidle
    have hall : ∀ e ∈ (s.tls.limboBag.push oldTs oldPtr).q, e.1 < u64Max := by
      intro e he
      rw [LimboBag.push_q, List.mem_append, List.mem_singleton] at he
      rcases he with he | rfl
      · exact h.eligible e he
      · exact hts
    have hpos := h.counted hw
    have hfin : finished s + 1 = s.tls.opCounter := by simp [finished, hw]; omega
    obtain ⟨hnext, hbound⟩ := tick_hold s.tls.gcMode (finished s)
    rw [← h.aligned, ← hhold] at hnext hbound
    refine ⟨fun e he => ?_, fun hf => absurd hf (by simp), ?_, ?_⟩
    · rw [hbag] at he
      exact hall e (LimboBag.mem_of_mem_drain_fst he)
    · show t'.holdTicks
        = if t'.gcMode = .conservativeHold then (t'.opCounter - 0) % holdLimit else 0
      rw [hop, Nat.sub_zero, ← hfin]
      by_cases hwin : s.tls.opCounter % windowSize = 0
      · -- at a boundary the counter is `0` whatever mode was selected
        rw [hbound (by rw [hfin]; exact hwin)]
        split
        · rw [hfin]
          have : s.tls.opCounter % 256 = 0 := hwin
          simp only [holdLimit]
          omega
        · rfl
      · rw [hmode hwin]
        exact hnext
    · show t'.limboBag.len ≤ B + t'.holdTicks
      rw [hbag, LimboBag.drain_len_of_forall hall, LimboBag.push_len, hhold]
      refine tick_backlog _ _ _ _ h.holdTicks_lt (fun hm => ?_) h.backlog
      rw [h.aligned, if_neg hm]
  · cases hs

theorem bounded_step {B : Nat} {s s' : State F P} {a : Action F P} (h : Bounded B s)
    (hs : step s a = some s') (hun : Unpinned ⟨s, a, s'⟩) : Bounded B s' := by
  cases a with
  | prepare =>
      simp only [step] at hs
      split at hs
      · cases hs
      · rename_i hw
        simp only [Option.some.injEq] at hs
        subst hs
        have hw' : s.writing = false := by simpa using hw
        have hal := h.aligned
        simp only [Aligned, finished, hw', Bool.toNat_false, Nat.sub_zero] at hal
        exact ⟨h.eligible, fun _ => Nat.succ_pos _, by
          simpa [Aligned, finished, PacerSystem.writeOpPrepare] using hal, h.backlog⟩
  | postWrite oldPtr oldTs => exact bounded_postWrite h hs hun
  | takeSnapshot nowNs elapsed =>
      simp only [step, PacerSystem.takeSnapshot] at hs
      obtain ⟨⟨sys', t', ts⟩, hsnap, rfl⟩ := Option.map_eq_some_iff.mp hs
      split at hsnap
      · cases hsnap
      · obtain ⟨sys'', -, heq⟩ := Option.map_eq_some_iff.mp hsnap
        simp only [Prod.mk.injEq] at heq
        obtain ⟨-, rfl, -⟩ := heq
        exact ⟨h.eligible, h.counted, h.aligned, h.backlog⟩
  | release =>
      obtain ⟨sys', -, rfl⟩ := Option.map_eq_some_iff.mp hs
      exact ⟨h.eligible, h.counted, h.aligned, h.backlog⟩
  | others sys' =>
      simp only [step, Option.some.injEq] at hs
      subst hs
      exact ⟨h.eligible, h.counted, h.aligned, h.backlog⟩

omit [F64 F] in
/-- At a window boundary with the hold counter at `0` the invariant holds of any bag whose
nodes were born before `u64::MAX`. -/
theorem bounded_boundary {tls : ThreadLocalState F P} (sys : PacerSystem F)
    (hop : tls.opCounter % windowSize = 0) (hhold : tls.holdTicks = 0)
    (helig : ∀ e ∈ tls.limboBag.q, e.1 < u64Max) :
    Bounded tls.limboBag.len (⟨sys, tls, false⟩ : State F P) where
  eligible := helig
  counted := fun h => by cases h
  aligned := by
    have : tls.opCounter % 256 = 0 := hop
    simp only [Aligned, finished, hhold, Bool.toNat_false, holdLimit]
    split <;> omega
  backlog := by simp [hhold]

/-- The run lemma: from a window boundary the bag never holds `holdLimit` nodes more than it
started with. -/
theorem backlog_le_of_boundary {sys : PacerSystem F} {tls : ThreadLocalState F P}
    {s : State F P} {tr : List (Trans (State F P) (Action F P))}
    (hop : tls.opCounter % windowSize = 0) (hhold : tls.holdTicks = 0)
    (helig : ∀ e ∈ tls.limboBag.q, e.1 < u64Max)
    (hrun : Run step ⟨sys, tls, false⟩ tr s) (hun : ∀ x ∈ tr, Unpinned x) :
    s.tls.limboBag.len ≤ tls.limboBag.len + holdLimit - 1 := by
  have h := hrun.invariant_of hun (bounded_boundary sys hop hhold helig)
    (fun _ _ _ hI hs hC => bounded_step hI hs hC)
  have := h.backlog
  have := h.holdTicks_lt
  omega

end

/-- **The backlog is bounded in every mode.** A fresh thread holds at most `holdLimit - 1`
nodes after each `post_write`; a thread that starts at a window boundary with `B` nodes and
`hold_ticks = 0` holds at most `B + holdLimit - 1`. -/
theorem backlog_bounded (F P : Type) [F64 F] :
    (∀ (sys : PacerSystem F) (tid : Nat) (s : State F P)
        (tr : List (Trans (State F P) (Action F P))),
      Run step ⟨sys, ThreadLocalState.new tid, false⟩ tr s → (∀ x ∈ tr, Unpinned x) →
      ∀ x ∈ tr, (∃ oldPtr oldTs, x.act = .postWrite oldPtr oldTs) →
        x.post.tls.limboBag.len ≤ holdLimit - 1)
    ∧ (∀ (sys : PacerSystem F) (tls : ThreadLocalState F P) (B : Nat) (s : State F P)
        (tr : List (Trans (State F P) (Action F P))),
      tls.opCounter % windowSize = 0 → tls.holdTicks = 0 → tls.limboBag.len = B →
      (∀ e ∈ tls.limboBag.q, e.1 < u64Max) →
      Run step ⟨sys, tls, false⟩ tr s → (∀ x ∈ tr, Unpinned x) →
      ∀ x ∈ tr, (∃ oldPtr oldTs, x.act = .postWrite oldPtr oldTs) →
        x.post.tls.limboBag.len ≤ B + holdLimit - 1) := by
  have key : ∀ (sys : PacerSystem F) (tls : ThreadLocalState F P) (s : State F P)
      (tr : List (Trans (State F P) (Action F P))),
      tls.opCounter % windowSize = 0 → tls.holdTicks = 0 →
      (∀ e ∈ tls.limboBag.q, e.1 < u64Max) →
      Run step ⟨sys, tls, false⟩ tr s → (∀ x ∈ tr, Unpinned x) → ∀ x ∈ tr,
        x.post.tls.limboBag.len ≤ tls.limboBag.len + holdLimit - 1 := by
    intro sys tls s tr hop hhold helig hrun hun x hx
    obtain ⟨tr', ⟨l, rfl⟩, h₁, h₂⟩ := hrun.of_mem hx
    refine backlog_le_of_boundary hop hhold helig (Run.snoc h₁ h₂) (fun y hy => hun y ?_)
    simp only [List.mem_append, List.mem_singleton] at hy ⊢
    rcases hy with hy | rfl
    · exact Or.inl hy
    · exact Or.inr (List.mem_cons_self)
  refine ⟨fun sys tid s tr hrun hun x hx _ => ?_, fun sys tls B s tr hop hhold hB helig hrun hun
    x hx _ => hB ▸ key sys tls s tr hop hhold helig hrun hun x hx⟩
  have h := key sys _ s tr rfl rfl (by simp [ThreadLocalState.new, LimboBag.new]) hrun hun x hx
  simpa [ThreadLocalState.new, LimboBag.new, LimboBag.len] using h

/-- Two writes with a snapshot of the same thread in between. -/
def shortRun : List (Action ℚ Nat) :=
  [.prepare, .postWrite 7 1, .takeSnapshot 0 0, .release, .prepare, .postWrite 8 1]

/-- A window of writes and some more of the next. -/
def windowOfWrites : List (Action ℚ Nat) :=
  (List.replicate (windowSize + 20) [.prepare, .postWrite 7 1]).flatten

/-- A thread in `ConservativeHold` at a window boundary, with ten nodes in its bag. -/
def holdingThread : ThreadLocalState ℚ Nat :=
  { (ThreadLocalState.new 0 : ThreadLocalState ℚ Nat) with
    spiEma := 3 / 5
    gcMode := .conservativeHold
    limboBag := (List.range 10).foldl (fun b ptr => b.push 1 ptr) LimboBag.new }

/-- A fresh thread, and one that holds back for a window of writes and leaves `ConservativeHold` at
its end. -/
theorem backlog_bounded_window :
    (∃ tr s, Run step (⟨PacerSystem.new.registerThread.1, ThreadLocalState.new 0, false⟩ :
        State ℚ Nat) tr s ∧ tr.length = 6
      ∧ ∀ x ∈ tr, (∃ oldPtr oldTs, x.act = .postWrite oldPtr oldTs) →
          x.post.tls.limboBag.len ≤ holdLimit - 1)
    ∧ ∃ tr s, Run step (⟨PacerSystem.new.registerThread.1, holdingThread, false⟩ : State ℚ Nat) tr s
      ∧ s.tls.gcMode = .amortisedFree
      ∧ (∃ x ∈ tr, x.post.tls.limboBag.len = 10 + holdLimit - 1)
      ∧ ∀ x ∈ tr, (∃ oldPtr oldTs, x.act = .postWrite oldPtr oldTs) →
          x.post.tls.limboBag.len ≤ 10 + holdLimit - 1 := by
  obtain ⟨tr, s, hrun, hp⟩ := exists_run_of_replay step
    (⟨PacerSystem.new.registerThread.1, ThreadLocalState.new 0, false⟩ : State ℚ Nat) shortRun
    (fun tr _ => decide (tr.length = 6) && decide (∀ x ∈ tr, Unpinned x)) (by decide +kernel)
  obtain ⟨tr', s', hrun', hp'⟩ := exists_run_of_replay step
    (⟨PacerSystem.new.registerThread.1, holdingThread, false⟩ : State ℚ Nat) windowOfWrites
    (fun tr s => decide (s.tls.gcMode = .amortisedFree)
      && decide (∃ x ∈ tr, x.post.tls.limboBag.len = 10 + holdLimit - 1)
      && decide (∀ x ∈ tr, Unpinned x)) (by decide +kernel)
  simp only [Bool.and_eq_true, decide_eq_true_eq] at hp hp'
  refine ⟨⟨tr, s, hrun, hp.1, (backlog_bounded ℚ Nat).1 _ _ s tr hrun hp.2⟩,
    ⟨tr', s', hrun', hp'.1.1, hp'.1.2, ?_⟩⟩
  exact (backlog_bounded ℚ Nat).2 _ holdingThread 10 s' tr' rfl rfl rfl (by decide) hrun' hp'.2

end Pacer.Reclaim
