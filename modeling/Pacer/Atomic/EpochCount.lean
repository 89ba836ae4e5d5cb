import Pacer.Atomic.SnapshotCut

set_option autoImplicit false

/-! # No epoch update is lost

`write_op_prepare` advances the epoch with a `fetch_add`, `try_advance_epoch` with a load and a
later compare-exchange. Every step of the system changes the epoch by what it counts as
(`globalEpoch_count_step`), so the epoch counts both, in every state of every run. A
compare-exchange fails only where another of these steps came in between.

The runs begin with a fresh system and any threads between calls: the two operations do not ask
whether their thread has registered.
-/

namespace Pacer.Atomic.SysState

open Machine

variable {F T P : Type} [F64 F] [DecidableEq T]

/-- The system as `PacerSystem::new` leaves it, and no thread in a call. -/
structure Fresh (s : SysState F T P) : Prop where
  sys : s.sys = PacerSystem.new
  pc : ∀ t, s.pc t = .unregistered ∨ s.pc t = .idle

omit [DecidableEq T] in
theorem fresh_init : Fresh (init F T P) := ⟨rfl, fun _ => Or.inl rfl⟩

/-- The next instruction is the `fetch_add` of a `write_op_prepare`. -/
def prepares : SysPc F → Bool
  | .prepare => true
  | _ => false

/-- The next instruction is a compare-exchange that finds the epoch it expects. -/
def advances (epoch : Nat) : SysPc F → Bool
  | .advanceCas _ cur => decide (epoch = cur)
  | _ => false

/-- The `fetch_add` of a `write_op_prepare`. -/
def isPrepare (x : Trans (SysState F T P) (SysAction T P)) : Bool :=
  match x.act with
  | .run t => prepares (x.pre.pc t)
  | _ => false

/-- The compare-exchange of a `try_advance_epoch` that succeeds. -/
def isAdvance (x : Trans (SysState F T P) (SysAction T P)) : Bool :=
  match x.act with
  | .run t => advances x.pre.sys.globalEpoch (x.pre.pc t)
  | _ => false

/-- The transition in which a `try_advance_epoch` of `t` loads the epoch. -/
def LoadsEpoch (x : Trans (SysState F T P) (SysAction T P)) (t : T) : Prop :=
  x.act = .run t ∧ ∃ b, x.pre.pc t = .advanceLoad b

/-- The transition in which a `try_advance_epoch` of `t` that had loaded `cur` fails. -/
def FailsAdvance (x : Trans (SysState F T P) (SysAction T P)) (t : T) (cur : Nat) : Prop :=
  x.act = .run t ∧ (∃ b, x.pre.pc t = .advanceCas b cur) ∧ x.pre.sys.globalEpoch ≠ cur

/-! ## Counting -/

/-- The epoch grows by one with each of the two kinds of updates, and by nothing else. -/
theorem globalEpoch_threadStep {sys sys' : PacerSystem F} {t t' : ThreadLocalState F P}
    {p q : SysPc F} (h : threadStep sys t p = some (sys', t', q)) :
    sys'.globalEpoch = sys.globalEpoch + (if prepares p then 1 else 0)
      + (if advances sys.globalEpoch p then 1 else 0) := by
  cases threadStep_cases h with
  | advanceCas b cur =>
      simp only [compareExchange, prepares, advances, decide_eq_true_eq]
      split
      · rename_i heq
        simp [heq]
      · rfl
  | panic p hp => rcases hp with ⟨ts, rfl⟩ | rfl | ⟨n, i, min, rfl⟩ <;> rfl
  | scc | sccReturns | sccEnds | latencyLoad | latencyStore | announce | release | prepare
  | scanCount | scanSlot | scanEnd | pop | drainEnd | storeSpi | storeDelta | advanceLoad => rfl

/-- **The step lemma.** -/
theorem globalEpoch_count_step {s s' : SysState F T P} {a : SysAction T P}
    (h : step s a = some s') :
    s'.sys.globalEpoch = s.sys.globalEpoch + (if isPrepare ⟨s, a, s'⟩ then 1 else 0)
      + (if isAdvance ⟨s, a, s'⟩ then 1 else 0) := by
  rcases step_cases h with ⟨t, rfl, -, rfl⟩ | ⟨t, c, rfl, -, rfl⟩ | ⟨t, sys, tls, q, rfl, hr, rfl⟩
  · rfl
  · rfl
  · exact globalEpoch_threadStep hr

/-- **The run lemma.** -/
theorem globalEpoch_eq_countP {s₀ s : SysState F T P}
    {tr : List (Trans (SysState F T P) (SysAction T P))} (h : Run step s₀ tr s) :
    s.sys.globalEpoch
      = s₀.sys.globalEpoch + tr.countP isPrepare + tr.countP isAdvance := by
  induction h with
  | nil => rfl
  | snoc _ hs ih =>
      rw [globalEpoch_count_step hs, ih, List.countP_append, List.countP_append,
        List.countP_singleton, List.countP_singleton]
      omega

/-! ## A failed exchange -/

/-- A thread comes to the compare-exchange only from the load before it. -/
theorem advanceCas_threadStep {sys sys' : PacerSystem F} {t t' : ThreadLocalState F P}
    {p : SysPc F} {b : Bool} {cur : Nat}
    (h : threadStep sys t p = some (sys', t', .advanceCas b cur)) :
    p = .advanceLoad b ∧ sys.globalEpoch = cur := by
  generalize hq : SysPc.advanceCas b cur = q at h
  cases threadStep_cases h with
  | advanceLoad b' =>
      cases hq
      exact ⟨rfl, rfl⟩
  | drainEnd safeTs k hf =>
      rcases afterDrain_pc t with h | h | h | h <;> rw [h] at hq <;> cases hq
  | storeDelta prevEma =>
      rcases afterResample_pc { t with winWrites := 0, winSnaps := 0 } with h | h | h <;>
        rw [h] at hq <;> cases hq
  | scc | sccReturns | sccEnds | latencyLoad | latencyStore | announce | release | panic
  | prepare | scanCount | scanSlot | scanEnd | pop | storeSpi | advanceCas => cases hq

/-- A thread about to exchange has loaded the epoch in its last instruction. -/
theorem exists_load {s₀ s : SysState F T P} (h₀ : Fresh s₀)
    {tr : List (Trans (SysState F T P) (SysAction T P))} (h : Run step s₀ tr s) {t : T}
    {b : Bool} {cur : Nat} (hp : s.pc t = .advanceCas b cur) :
    ∃ tr₁ x tr₂, tr = tr₁ ++ x :: tr₂ ∧ LoadsEpoch x t ∧ x.pre.sys.globalEpoch = cur
      ∧ ∀ z ∈ tr₂, z.act ≠ .run t := by
  induction h with
  | nil => rcases h₀.pc t with h | h <;> rw [h] at hp <;> cases hp
  | snoc hr hs ih =>
      rename_i s s' a tr
      rcases thread_step_cases hs t with ⟨hpc, -, -, hne, -⟩ | ⟨-, -, hpc, -⟩ | ⟨c, -, -, hpc, -⟩
        | ⟨rfl, hthread, -⟩
      · -- another thread's step
        obtain ⟨tr₁, x, tr₂, rfl, hx, hcur, hno⟩ := ih (hpc ▸ hp)
        refine ⟨tr₁, x, tr₂ ++ [⟨s, a, s'⟩], by simp, hx, hcur, fun z hz => ?_⟩
        rcases List.mem_append.mp hz with hz | hz
        · exact hno z hz
        · rw [List.mem_singleton.mp hz]
          exact hne
      · rcases hpc with hpc | hpc <;> rw [hpc] at hp <;> cases hp
      · rw [hp] at hpc
        cases c <;> cases hpc
      · rw [hp] at hthread
        obtain ⟨hload, hcur⟩ := advanceCas_threadStep hthread
        exact ⟨tr, _, [], rfl, ⟨rfl, b, hload⟩, hcur, by simp⟩

/-- Where the epoch has changed, one of the two kinds of updates was made. -/
theorem exists_update {s₀ s : SysState F T P}
    {tr : List (Trans (SysState F T P) (SysAction T P))} (h : Run step s₀ tr s)
    (hne : s.sys.globalEpoch ≠ s₀.sys.globalEpoch) :
    ∃ z ∈ tr, isPrepare z = true ∨ isAdvance z = true := by
  by_contra hno
  push Not at hno
  have h₁ : tr.countP isPrepare = 0 := List.countP_eq_zero.mpr (fun z hz => by simp [(hno z hz).1])
  have h₂ : tr.countP isAdvance = 0 := List.countP_eq_zero.mpr (fun z hz => by simp [(hno z hz).2])
  have := globalEpoch_eq_countP h
  omega

/-- A failed exchange of `t` had its load earlier, and between the two another thread advanced
the epoch. -/
theorem advanced_between {s₀ : SysState F T P} (h₀ : Fresh s₀)
    {tr : List (Trans (SysState F T P) (SysAction T P))}
    {y : Trans (SysState F T P) (SysAction T P)} {t : T} {cur : Nat}
    (h : Run step s₀ tr y.pre) (hy : FailsAdvance y t cur) :
    ∃ tr₁ x tr₂, tr = tr₁ ++ x :: tr₂ ∧ LoadsEpoch x t ∧ x.pre.sys.globalEpoch = cur
      ∧ (∀ z ∈ tr₂, z.act ≠ .run t)
      ∧ ∃ z ∈ tr₂, isPrepare z = true ∨ isAdvance z = true := by
  obtain ⟨-, ⟨b, hp⟩, hne⟩ := hy
  obtain ⟨tr₁, x, tr₂, rfl, hx, hcur, hno⟩ := exists_load h₀ h hp
  obtain ⟨-, hs, hrest⟩ := h.split
  refine ⟨tr₁, x, tr₂, rfl, hx, hcur, hno, exists_update hrest ?_⟩
  -- the load itself leaves the epoch alone
  obtain ⟨hact, b', hload⟩ := hx
  rw [hact] at hs
  simp only [step, hload, threadStep, Option.map_some, Option.some.injEq] at hs
  rw [← hs]
  exact hcur.symm ▸ hne

/-! ## The three parts -/

/-- **Epoch updates are never lost**, in every run from a fresh system: the epoch is one more
than the number of `write_op_prepare` calls that performed their `fetch_add` and of
`try_advance_epoch` calls whose exchange succeeded; a `write_op_prepare` takes a timestamp above
all that were taken before, by whichever thread; and a failed `try_advance_epoch` had another
thread advance the epoch between its load and its exchange. -/
theorem epoch_updates_counted {s₀ s : SysState F T P} (h₀ : Fresh s₀)
    {tr : List (Trans (SysState F T P) (SysAction T P))} (h : Run step s₀ tr s) :
    s.sys.globalEpoch = 1 + tr.countP isPrepare + tr.countP isAdvance
      ∧ (∀ tr₁ x tr₂ y tr₃ d d', tr = tr₁ ++ x :: (tr₂ ++ y :: tr₃) →
        Prepares x d → Prepares y d' → d < d')
      ∧ (∀ tr₁ y tr₂ t cur, tr = tr₁ ++ y :: tr₂ → FailsAdvance y t cur →
        ∃ tr₃ x tr₄, tr₁ = tr₃ ++ x :: tr₄ ∧ LoadsEpoch x t ∧ x.pre.sys.globalEpoch = cur
          ∧ (∀ z ∈ tr₄, z.act ≠ .run t)
          ∧ ∃ z ∈ tr₄, isPrepare z = true ∨ isAdvance z = true) := by
  refine ⟨?_, ?_, ?_⟩
  · rw [globalEpoch_eq_countP h, h₀.sys]
    rfl
  · rintro tr₁ x tr₂ y tr₃ d d' rfl hx ⟨u, -, -, rfl⟩
    obtain ⟨-, hs, hrest⟩ := h.split
    calc d < x.post.sys.globalEpoch := hx.lt_epoch hs
      _ ≤ y.pre.sys.globalEpoch := globalEpoch_run hrest.split.1
  · rintro tr₁ y tr₂ t cur rfl hy
    exact advanced_between h₀ h.split.1 hy

/-- Thread `u` loads the epoch, thread `t` prepares a write, and `u`'s exchange fails. -/
def failedAdvance {T : Type} (t u : T) : List (SysAction T Unit) :=
  [.register t, .register u, .call u .tryAdvance, .run u, .call t .prepare, .run t, .run u]

theorem epoch_updates_counted_failed :
    ∃ tr s, Run step (init ℚ (Fin 2) Unit) tr s ∧ tr.length = 7
      ∧ s.sys.globalEpoch = 1 + tr.countP isPrepare + tr.countP isAdvance
      ∧ tr.countP isPrepare = 1 ∧ tr.countP isAdvance = 0 := by
  obtain ⟨tr, s, hrun, hp⟩ := exists_run_of_replay step (init ℚ (Fin 2) Unit) (failedAdvance 0 1)
    (fun tr s => decide (tr.length = 7) && decide (tr.countP isPrepare = 1)
      && decide (tr.countP isAdvance = 0)) (by decide +kernel)
  simp only [Bool.and_eq_true, decide_eq_true_eq] at hp
  exact ⟨tr, s, hrun, hp.1.1, (epoch_updates_counted fresh_init hrun).1, hp.1.2, hp.2⟩

end Pacer.Atomic.SysState
