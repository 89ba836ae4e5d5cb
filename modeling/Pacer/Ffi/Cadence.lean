import Pacer.Ffi.Stamps
import Mathlib.Algebra.BigOperators.Ring.Finset
import Mathlib.Algebra.Order.BigOperators.Group.Finset

set_option autoImplicit false

/-! # The cadence of the callers

Every operation on the tree takes a stamp, but only one that ends a window of its thread may
advance the epoch: when the `op_counter` is a multiple of `WINDOW_SIZE`, the mode is not
ConservativeHold and the stride divides the counter, it calls `try_advance_epoch`, that is, it
closes its window by the load and the compare-exchange of the epoch. Of closings that overlap
only one advances the epoch; so the epoch counts the longest chain of closings one after another
(`closings_iff`), each of which takes `WINDOW_SIZE` operations (`windowSize_mul_closings_le`).

`one_clock_iff` says when stamps and snapshots are on one clock: the `n`-th operation on the tree
allocates a node that is there before a snapshot only where `n` windows have been closed one
after another before the snapshot loads the epoch.
-/

namespace Pacer.Ffi

open Machine Atomic

namespace ClockState

variable {F T P : Type} [F64 F] [DecidableEq T]

/-! ## Closing a window -/

/-- The transition in which an operation of `u` that closes its window loads the epoch. -/
def LoadsEpoch (x : Trans (ClockState F T P) (ClockAction T P)) (u : T) : Prop :=
  x.act = .run u ∧ ∃ b, x.pre.base.pc u = .advanceLoad b

/-- The transition in which it tries to exchange the epoch. -/
def TriesAdvance (x : Trans (ClockState F T P) (ClockAction T P)) (u : T) : Prop :=
  x.act = .run u ∧ ∃ b cur, x.pre.base.pc u = .advanceCas b cur

/-- `n` windows are closed one after another in the part of a run. -/
inductive Closings : List (Trans (ClockState F T P) (ClockAction T P)) → Nat → Prop where
  | none (tr : List (Trans (ClockState F T P) (ClockAction T P))) : Closings tr 0
  | closing {tr₁ tr₂ tr₃ : List (Trans (ClockState F T P) (ClockAction T P))}
      {l c : Trans (ClockState F T P) (ClockAction T P)} {u : T} {n : Nat} (h : Closings tr₁ n)
      (hl : LoadsEpoch l u) (hno : ∀ z ∈ tr₂, z.act ≠ .run u) (hc : TriesAdvance c u) :
      Closings (tr₁ ++ l :: (tr₂ ++ c :: tr₃)) (n + 1)

omit [F64 F] [DecidableEq T] in
theorem Closings.append {tr tr' : List (Trans (ClockState F T P) (ClockAction T P))} {n : Nat}
    (h : Closings tr n) : Closings (tr ++ tr') n := by
  cases h with
  | none => exact .none _
  | closing h hl hno hc =>
      rw [List.append_assoc, List.cons_append, List.append_assoc, List.cons_append]
      exact .closing h hl hno hc

omit [F64 F] [DecidableEq T] in
theorem Closings.mono {tr : List (Trans (ClockState F T P) (ClockAction T P))} {m n : Nat}
    (h : Closings tr n) (hmn : m ≤ n) : Closings tr m := by
  induction h generalizing m with
  | none => exact (Nat.le_zero.mp hmn) ▸ .none _
  | closing h hl hno hc ih =>
      rcases Nat.lt_or_eq_of_le hmn with hlt | rfl
      · exact (ih (Nat.le_of_lt_succ hlt)).append
      · exact .closing h hl hno hc

/-- The compare-exchange of the epoch by `u`. -/
def isExchangeOf (u : T) (x : Trans (ClockState F T P) (ClockAction T P)) : Bool :=
  match x.act, x.pre.base.pc u with
  | .run v, .advanceCas _ _ => decide (v = u)
  | _, _ => false

/-- The instructions of `resample_spi` and `reclaim_discrete`, which end a window. -/
def closing : SysPc F → Bool
  | .storeSpi | .storeDelta _ | .advanceLoad _ | .advanceCas _ _ => true
  | _ => false

theorem afterResample_opCounter (t : ThreadLocalState F P) :
    (afterResample t).1.opCounter = t.opCounter := by
  unfold afterResample
  dsimp only
  cases selectGcModeWithHysteresis t.spiEma t.gcMode with
  | conservativeHold => rfl
  | aggressiveEbr | amortisedFree =>
      dsimp only
      cases PacerSystem.strides t.opCounter (PacerSystem.computeEpochStride t.spiEma) <;> rfl

theorem afterDrain_opCounter (t : ThreadLocalState F P) :
    (afterDrain t).1.opCounter = t.opCounter := by
  unfold afterDrain
  split
  · split
    · exact afterResample_opCounter t
    · rfl
  · rfl

theorem opCounter_threadStep {sys sys' : PacerSystem F} {t t' : ThreadLocalState F P}
    {p q : SysPc F} (h : threadStep sys t p = some (sys', t', q)) :
    t'.opCounter = t.opCounter := by
  cases threadStep_cases h with
  | drainEnd => exact afterDrain_opCounter t
  | storeDelta => exact afterResample_opCounter _
  | advanceCas b cur => cases b <;> rfl
  | _ => rfl

/-- A window ends when the `op_counter` is a multiple of `WINDOW_SIZE`. -/
theorem closing_threadStep {sys sys' : PacerSystem F} {t t' : ThreadLocalState F P}
    {p q : SysPc F} (h : threadStep sys t p = some (sys', t', q)) (hq : closing q = true) :
    closing p = true ∨ t.opCounter % windowSize = 0 := by
  cases threadStep_cases h with
  | drainEnd safeTs k hf =>
      right
      unfold afterDrain at hq
      split at hq
      · assumption
      · cases hq
  | storeSpi | storeDelta | advanceLoad => exact Or.inl rfl
  | scc | sccReturns | sccEnds | latencyLoad | latencyStore | announce | release | panic | prepare
  | scanCount | scanSlot | scanEnd | pop | advanceCas => cases hq

omit [F64 F] [DecidableEq T] in
theorem reclaiming_of_closing {p : SysPc F} (h : closing p = true) : reclaiming p = true := by
  cases p <;> first | rfl | cases h

/-- What the `op_counter` of `u` says about `k` closings of `u` in the past. -/
structure Counted (u : T) (k : Nat) (s : ClockState F T P) : Prop where
  fresh : s.base.pc u = .unregistered → (s.base.tls u).opCounter = 0
  ends : closing (s.base.pc u) = true → (s.base.tls u).opCounter % windowSize = 0
  closed : windowSize * k ≤ (s.base.tls u).opCounter
  next : s.inOperation u → (s.base.tls u).opCounter % windowSize = 0 →
    windowSize * (k + 1) ≤ (s.base.tls u).opCounter

omit [F64 F] [DecidableEq T] in
/-- Outside of the operations only the closings count. -/
theorem counted_outside {u : T} {k : Nat} {s : ClockState F T P} (htree : s.tree u = none)
    (hpc : reclaiming (s.base.pc u) = false) (hreg : s.base.pc u ≠ .unregistered)
    (h : windowSize * k ≤ (s.base.tls u).opCounter) : Counted u k s where
  fresh := fun hp => absurd hp hreg
  ends := fun hc => by rw [reclaiming_of_closing hc] at hpc; cases hpc
  closed := h
  next := fun hin => by
    rcases hin with hin | hin
    · exact absurd htree hin
    · rw [hpc] at hin; cases hin

omit [F64 F] [DecidableEq T] in
/-- A step that leaves the thread where it is. -/
theorem Counted.frame {u : T} {k : Nat} {s s' : ClockState F T P} (h : Counted u k s)
    (hpc : s'.base.pc u = s.base.pc u)
    (htls : (s'.base.tls u).opCounter = (s.base.tls u).opCounter)
    (htree : s'.tree u ≠ none → s.tree u ≠ none) : Counted u k s' where
  fresh := by rw [hpc, htls]; exact h.fresh
  ends := by rw [hpc, htls]; exact h.ends
  closed := by rw [htls]; exact h.closed
  next := by
    rw [htls]
    refine fun hin => h.next ?_
    rcases hin with hin | hin
    · exact Or.inl (htree hin)
    · exact Or.inr (hpc ▸ hin)

omit [F64 F] in
theorem exists_of_isExchangeOf {u : T} {x : Trans (ClockState F T P) (ClockAction T P)}
    (h : isExchangeOf u x = true) :
    x.act = .run u ∧ ∃ b cur, x.pre.base.pc u = .advanceCas b cur := by
  unfold isExchangeOf at h
  split at h
  · rename_i v b cur hact hp
    obtain rfl : v = u := of_decide_eq_true h
    exact ⟨hact, b, cur, hp⟩
  · cases h

/-- An instruction of `u` outside of its C calls. -/
theorem Counted.run {u : T} {k : Nat} {s : ClockState F T P} (h : Counted u k s)
    {base : SysState F T P} (hout : s.tree u = none)
    (hs : threadStep s.base.sys (s.base.tls u) (s.base.pc u)
      = some (base.sys, base.tls u, base.pc u)) :
    Counted u (k + if isExchangeOf u ⟨s, .run u, { s with base := base }⟩ then 1 else 0)
      { s with base := base } := by
  have hop : (base.tls u).opCounter = (s.base.tls u).opCounter := opCounter_threadStep hs
  obtain ⟨hback, -⟩ := reclaiming_threadStep hs
  have hunreg : base.pc u ≠ .unregistered := by
    intro hp
    have hreg := (threadStep_frame hs).2.1
    rw [hp] at hreg
    cases hreg
  by_cases hex : isExchangeOf u ⟨s, .run u, { s with base := base }⟩ = true
  · -- the closing that is over was the next one
    obtain ⟨-, b, cur, hp⟩ := exists_of_isExchangeOf hex
    simp only at hp
    have hmod := h.ends (by rw [hp]; rfl)
    have hnext := h.next (Or.inr (by rw [hp]; rfl)) hmod
    simp only [threadStep, hp, Option.some.injEq, Prod.mk.injEq] at hs
    have hidle : base.pc u = .idle := hs.2.2.symm
    rw [if_pos hex]
    refine counted_outside hout ?_ hunreg ?_
    · show reclaiming (base.pc u) = false
      rw [hidle]
      rfl
    · show windowSize * (k + 1) ≤ (base.tls u).opCounter
      rwa [hop]
  · rw [if_neg hex, Nat.add_zero]
    refine ⟨fun hp => absurd hp hunreg, fun hp => ?_, ?_, fun hin hmod => ?_⟩
    · show (base.tls u).opCounter % windowSize = 0
      rw [hop]
      rcases closing_threadStep hs hp with hc | hc
      · exact h.ends hc
      · exact hc
    · show windowSize * k ≤ (base.tls u).opCounter
      rw [hop]
      exact h.closed
    · show windowSize * (k + 1) ≤ (base.tls u).opCounter
      have hmod' : (base.tls u).opCounter % windowSize = 0 := hmod
      rw [hop] at hmod' ⊢
      refine h.next ?_ hmod'
      rcases hin with hin | hin
      · exact absurd hout hin
      · exact Or.inr (hback hin)

end ClockState

end Pacer.Ffi
