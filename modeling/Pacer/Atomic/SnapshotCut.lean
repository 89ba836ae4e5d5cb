import Pacer.Atomic.SystemSteps
import Pacer.Atomic.SccMonotone

set_option autoImplicit false

/-! # Snapshots cut the write order

Every write takes its timestamp from the epoch and advances it. A snapshot's timestamp is a
value of the epoch: a write that takes its timestamp after the snapshot was returned is at or
above it, and a snapshot that opened its window is above every write that took its timestamp
before the call.
-/

namespace Pacer.Atomic

open Machine

section

variable {F P : Type} [F64 F]

/-- The timestamp that a `take_snapshot` past the coordinator is about to announce. -/
def SysPc.snapshot : SysPc F → Option Nat
  | .latencyLoad _ ts | .latencyStore _ ts _ | .announce ts => some ts
  | _ => none

/-- The thread is in a `take_snapshot`. -/
def SysPc.taking : SysPc F → Bool
  | .scc _ _ | .latencyLoad _ _ | .latencyStore _ _ _ | .announce _ => true
  | _ => false

/-- A timestamp on its way to the announcement was there before, or the coordinator has just
returned it. -/
theorem snapshot_threadStep {sys sys' : PacerSystem F} {t t' : ThreadLocalState F P}
    {p q : SysPc F} {ts : Nat} (h : threadStep sys t p = some (sys', t', q))
    (hq : q.snapshot = some ts) :
    p.snapshot = some ts ∨ ∃ elapsed r, p = .scc elapsed r ∧ r.returns = some ts := by
  cases threadStep_cases h with
  | sccReturns elapsed v r hr hret => exact Or.inr ⟨elapsed, r, rfl, hret.trans hq⟩
  | latencyLoad => exact Or.inl hq
  | latencyStore => exact Or.inl hq
  | drainEnd safeTs k hf =>
      rcases afterDrain_pc t with h | h | h | h <;> rw [h] at hq <;> cases hq
  | storeDelta prevEma =>
      rcases afterResample_pc { t with winWrites := 0, winSnaps := 0 } with h | h | h <;>
        rw [h] at hq <;> cases hq
  | scc | sccEnds | announce | release | panic | prepare | scanCount | scanSlot | scanEnd | pop
  | storeSpi | advanceLoad | advanceCas => cases hq

/-- No instruction leads into a `take_snapshot`. -/
theorem taking_threadStep {sys sys' : PacerSystem F} {t t' : ThreadLocalState F P}
    {p q : SysPc F} (h : threadStep sys t p = some (sys', t', q)) (hq : q.taking = true) :
    p.taking = true := by
  cases hp : SysState.sccPc p with
  | some r =>
      cases p <;> simp only [SysState.sccPc, reduceCtorEq] at hp
      rfl
  | none =>
      have hout := (SysState.threadStep_scc h hp).1
      have hsnap : ∃ ts, q.snapshot = some ts := by
        cases q <;> simp only [SysPc.taking, Bool.false_eq_true] at hq
        case scc => cases hout
        all_goals exact ⟨_, rfl⟩
      obtain ⟨ts, hts⟩ := hsnap
      rcases snapshot_threadStep h hts with hold | ⟨elapsed, r, rfl, -⟩
      · cases p <;> simp only [SysPc.snapshot, reduceCtorEq] at hold <;> rfl
      · rfl

end

namespace SysState

variable {F T P : Type} [F64 F] [DecidableEq T]

/-- The transition in which a `take_snapshot` of `t` announces `ts` and returns it. -/
def ReturnsSnapshot (x : Trans (SysState F T P) (SysAction T P)) (t : T) (ts : Nat) : Prop :=
  x.act = .run t ∧ x.pre.pc t = .announce ts ∧ x.post.pc t = .idle

/-- The transition in which a `take_snapshot` of `t` starts. -/
def StartsSnapshot (x : Trans (SysState F T P) (SysAction T P)) (t : T) : Prop :=
  ∃ nowNs elapsed, x.act = .call t (.takeSnapshot nowNs elapsed)

/-- The transition in which a `take_snapshot` of `t` publishes the window it opened. -/
def OpensWindow (x : Trans (SysState F T P) (SysAction T P)) (t : T) : Prop :=
  x.act = .run t ∧ ∃ elapsed nowNs gen newTs, x.pre.pc t = .scc elapsed (.publish nowNs gen newTs)

/-- The transition in which a `write_op_prepare` takes the timestamp `d`. -/
def Prepares (x : Trans (SysState F T P) (SysAction T P)) (d : Nat) : Prop :=
  ∃ t, x.act = .run t ∧ x.pre.pc t = .prepare ∧ x.pre.sys.globalEpoch = d

/-- The epoch grows by at most one in a step. -/
theorem globalEpoch_step {s s' : SysState F T P} {a : SysAction T P} (h : step s a = some s') :
    s.sys.globalEpoch ≤ s'.sys.globalEpoch ∧ s'.sys.globalEpoch ≤ s.sys.globalEpoch + 1 := by
  rcases step_cases h with ⟨t, -, -, rfl⟩ | ⟨t, c, -, -, rfl⟩ | ⟨t, sys, tls, q, -, hr, rfl⟩
  · exact ⟨le_rfl, Nat.le_succ _⟩
  · exact ⟨le_rfl, Nat.le_succ _⟩
  · cases hp : s.pc t with
    | scc elapsed p =>
        rw [hp] at hr
        cases hr
        exact ⟨le_rfl, Nat.le_succ _⟩
    | _ =>
        obtain ⟨-, ⟨-, k, hle, hk⟩ | ⟨hep, -⟩⟩ := threadStep_scc hr (by rw [hp]; rfl)
        · dsimp only
          omega
        · dsimp only
          omega

theorem globalEpoch_run {s s' : SysState F T P}
    {tr : List (Trans (SysState F T P) (SysAction T P))} (h : Run step s tr s') :
    s.sys.globalEpoch ≤ s'.sys.globalEpoch :=
  h.invariant (I := fun r => s.sys.globalEpoch ≤ r.sys.globalEpoch) le_rfl
    (fun _ _ _ hr hs => le_trans hr (globalEpoch_step hs).1)

/-- A transition that takes a timestamp leaves the epoch above it. -/
theorem Prepares.lt_epoch {x : Trans (SysState F T P) (SysAction T P)} {d : Nat}
    (h : Prepares x d) (hs : step x.pre x.act = some x.post) : d < x.post.sys.globalEpoch := by
  obtain ⟨t, hact, hpc, rfl⟩ := h
  rw [hact] at hs
  simp only [step, hpc, threadStep, Option.map_some, Option.some.injEq] at hs
  rw [← hs]
  exact Nat.lt_succ_self _

/-- What is known of a state of a run: the coordinator's invariant, and that every timestamp
on its way to the announcement is a past value of the epoch. -/
structure CutInv (s : SysState F T P) : Prop where
  scc : SccState.SccInv 1 s.toScc
  snapshot : ∀ t ts, (s.pc t).snapshot = some ts → 1 ≤ ts ∧ ts ≤ s.sys.globalEpoch

omit [DecidableEq T] in
theorem cutInv_init : CutInv (init F T P) where
  scc := SccState.sccInv_init le_rfl
  snapshot := fun t ts h => by simp [init, SysPc.snapshot] at h

theorem sccInv_step {s s' : SysState F T P} {a : SysAction T P}
    (h : SccState.SccInv 1 s.toScc) (hs : step s a = some s') :
    SccState.SccInv 1 s'.toScc := by
  rcases toScc_step hs with heq | ⟨b, hb⟩
  · rw [heq]; exact h
  · exact SccState.sccInv_step h hb

omit [F64 F] in
theorem snapshot_start (t : ThreadLocalState F P) (c : SysCall P) :
    (start t c).2.snapshot = none := by
  cases c <;> rfl

/-- **The step lemma.** -/
theorem cutInv_step {s s' : SysState F T P} {a : SysAction T P} (h : CutInv s)
    (hs : step s a = some s') : CutInv s' := by
  refine ⟨sccInv_step h.scc hs, fun u ts hu => ?_⟩
  have hle := (globalEpoch_step hs).1
  have hold : (s.pc u).snapshot = some ts → 1 ≤ ts ∧ ts ≤ s'.sys.globalEpoch := fun hp => by
    have := h.snapshot u ts hp
    omega
  rcases thread_step_cases hs u with ⟨hp, -⟩ | ⟨-, -, hp, -⟩ | ⟨c, -, -, hp, -⟩ | ⟨-, hr, -⟩
  · exact hold (hp ▸ hu)
  · rcases hp with hp | hp <;> rw [hp] at hu <;> cases hu
  · rw [hp, snapshot_start] at hu
    cases hu
  · rcases snapshot_threadStep hr hu with hp | ⟨elapsed, r, hp, hret⟩
    · exact hold hp
    · have hpc : s.toScc.pc u = some r := by simp only [toScc, hp, sccPc]
      obtain ⟨h₁, h₂⟩ := (h.scc.ok u r hpc).returns_le hret
      exact ⟨h₁, le_trans h₂ (le_trans h.scc.ts_le hle)⟩

theorem cutInv_of_run {s : SysState F T P}
    {tr : List (Trans (SysState F T P) (SysAction T P))} (h : Run step (init F T P) tr s) :
    CutInv s :=
  h.invariant cutInv_init (fun _ _ _ hI hs => cutInv_step hI hs)

/-! ## The three parts -/

/-- A returned timestamp is a value that the epoch has had. -/
theorem returned_was_epoch {s : SysState F T P}
    {tr : List (Trans (SysState F T P) (SysAction T P))} (h : Run step (init F T P) tr s)
    {t : T} {ts : Nat} (hts : (s.pc t).snapshot = some ts) :
    1 ≤ ts ∧ ∃ r ∈ visited (init F T P) tr, r.sys.globalEpoch = ts := by
  obtain ⟨hpos, hle⟩ := (cutInv_of_run h).snapshot t ts hts
  exact ⟨hpos, h.exists_visited (fun r => r.sys.globalEpoch)
    (fun _ _ _ hs => (globalEpoch_step hs).2) hpos hle⟩

/-- The epoch timestamps loaded by a call of `t` are above `d`, and `t` announces none but
those. -/
structure OpensAbove (d : Nat) (t : T) (s : SysState F T P) : Prop where
  epoch : d < s.sys.globalEpoch
  call : ∀ p, s.toScc.pc t = some p → PcAbove 0 (d + 1) p

theorem opensAbove_step {d : Nat} {t : T} {s s' : SysState F T P} {a : SysAction T P}
    (h : OpensAbove d t s) (hs : step s a = some s') : OpensAbove d t s' := by
  refine ⟨lt_of_lt_of_le h.epoch (globalEpoch_step hs).1, ?_⟩
  rcases toScc_step hs with heq | ⟨b, hb⟩
  · rw [heq]; exact h.call
  · exact SccState.pcAbove_step (s := s.toScc) (Nat.zero_le _) h.epoch h.call hb

/-- Until the next snapshot of `t`, nothing but `ts` is announced by `t`. -/
structure OnItsWay (ts : Nat) (t : T) (s : SysState F T P) : Prop where
  outside : sccPc (s.pc t) = none
  snapshot : ∀ v, (s.pc t).snapshot = some v → v = ts

theorem onItsWay_step {ts : Nat} {t : T} {s s' : SysState F T P} {a : SysAction T P}
    (h : OnItsWay ts t s) (hs : step s a = some s')
    (hno : ¬ StartsSnapshot ⟨s, a, s'⟩ t) : OnItsWay ts t s' := by
  rcases thread_step_cases hs t with ⟨hp, -⟩ | ⟨-, -, hp, -⟩ | ⟨c, rfl, -, hp, -⟩ | ⟨-, hr, -⟩
  · exact ⟨by rw [hp]; exact h.outside, by rw [hp]; exact h.snapshot⟩
  · rcases hp with hp | hp <;> exact ⟨by rw [hp]; rfl, by rw [hp]; simp [SysPc.snapshot]⟩
  · cases c with
    | takeSnapshot nowNs elapsed => exact absurd ⟨nowNs, elapsed, rfl⟩ hno
    | release | prepare | postWrite | tryAdvance =>
        exact ⟨by rw [hp]; rfl, by rw [hp]; simp [start, SysPc.snapshot]⟩
  · refine ⟨(threadStep_scc hr h.outside).1, fun v hv => ?_⟩
    rcases snapshot_threadStep hr hv with hp | ⟨elapsed, r, hp, -⟩
    · exact h.snapshot v hp
    · have hout := h.outside
      rw [hp] at hout
      cases hout

/-- The publishing store hands its timestamp to the rest of `take_snapshot`. -/
theorem onItsWay_of_publish {s s' : SysState F T P} {t : T} {elapsed nowNs gen newTs : Nat}
    (hp : s.pc t = .scc elapsed (.publish nowNs gen newTs)) (hs : step s (.run t) = some s') :
    OnItsWay newTs t s' := by
  simp only [step, hp, threadStep, Option.map_some, Option.some.injEq] at hs
  have hpc : s'.pc t = .latencyLoad elapsed newTs := by
    rw [← hs]
    exact Function.update_self ..
  exact ⟨by rw [hpc]; rfl, by rw [hpc]; simp [SysPc.snapshot]⟩

/-- A call that starts above `d` and opens a window returns a timestamp above `d`. -/
theorem lt_of_opensWindow {s s' : SysState F T P} {t : T} {d ts : Nat}
    {c o x : Trans (SysState F T P) (SysAction T P)}
    {tr₁ tr₂ tr₃ : List (Trans (SysState F T P) (SysAction T P))}
    (h : Run step s (c :: (tr₁ ++ o :: (tr₂ ++ x :: tr₃))) s') (hd : d < c.pre.sys.globalEpoch)
    (hc : StartsSnapshot c t) (ho : OpensWindow o t) (hno : ∀ z ∈ tr₂, ¬ StartsSnapshot z t)
    (hx : ReturnsSnapshot x t ts) : d < ts := by
  obtain ⟨hsc, hrest⟩ := h.cons_inv
  obtain ⟨h₁, hso, hrest⟩ := hrest.split
  obtain ⟨h₂, -, -⟩ := hrest.split
  -- the call starts without an epoch value
  have hnew : OpensAbove d t c.post := by
    refine ⟨lt_of_lt_of_le hd (globalEpoch_step hsc).1, fun p hp => ?_⟩
    obtain ⟨nowNs, elapsed, hact⟩ := hc
    rcases thread_step_cases hsc t with ⟨-, -, -, -, hne⟩ | ⟨ha, -⟩ | ⟨c', ha, -, hpc, -⟩ | ⟨ha, -⟩
    · exact absurd hact (hne _)
    · rw [hact] at ha
      cases ha
    · rw [hact] at ha
      cases ha
      simp only [toScc, hpc, start, sccPc, Option.some.injEq] at hp
      rw [← hp]
      trivial
    · rw [hact] at ha
      cases ha
  have habove := h₁.invariant hnew (fun _ _ _ hI hs => opensAbove_step hI hs)
  obtain ⟨hact, elapsed, nowNs, gen, newTs, hpc⟩ := ho
  have hlt : PcAbove 0 (d + 1) (.publish nowNs gen newTs) :=
    habove.call _ (by simp only [toScc, hpc, sccPc])
  simp only [PcAbove] at hlt
  rw [hact] at hso
  have hway := h₂.invariant_of hno (onItsWay_of_publish hpc hso)
    (fun _ _ _ hI hs hC => onItsWay_step hI hs hC)
  have : ts = newTs := hway.snapshot ts (by rw [hx.2.1]; rfl)
  omega

/-- **Snapshots cut the write order consistently**, in every run of a fresh system: a returned
timestamp is at least `1` and a past value of the epoch; a write that takes its timestamp after
the return is at or above it; and a call that opened a window is above every write that took
its timestamp before the call started. -/
theorem snapshots_cut {s : SysState F T P}
    {tr : List (Trans (SysState F T P) (SysAction T P))} (h : Run step (init F T P) tr s) :
    (∀ tr₁ x tr₂ t ts, tr = tr₁ ++ x :: tr₂ → ReturnsSnapshot x t ts →
        1 ≤ ts ∧ ∃ r ∈ visited (init F T P) tr₁, r.sys.globalEpoch = ts)
      ∧ (∀ tr₁ x tr₂ y tr₃ t ts d, tr = tr₁ ++ x :: (tr₂ ++ y :: tr₃) →
        ReturnsSnapshot x t ts → Prepares y d → ts ≤ d)
      ∧ (∀ tr₁ y tr₂ c tr₃ o tr₄ x tr₅ t ts d,
        tr = tr₁ ++ y :: (tr₂ ++ c :: (tr₃ ++ o :: (tr₄ ++ x :: tr₅))) →
        Prepares y d → StartsSnapshot c t → OpensWindow o t →
        (∀ z ∈ tr₄, ¬ StartsSnapshot z t) → ReturnsSnapshot x t ts → d < ts) := by
  refine ⟨?_, ?_, ?_⟩
  · rintro tr₁ x tr₂ t ts rfl ⟨-, hpc, -⟩
    exact returned_was_epoch h.split.1 (t := t) (by rw [hpc]; rfl)
  · rintro tr₁ x tr₂ y tr₃ t ts d rfl ⟨-, hpc, -⟩ ⟨u, -, -, rfl⟩
    -- the timestamp is at most the epoch at the return, and the epoch never falls
    obtain ⟨h₁, hs, hrest⟩ := h.split
    have hts := ((cutInv_of_run h₁).snapshot t ts (by rw [hpc]; rfl)).2
    have := (globalEpoch_step hs).1
    have := globalEpoch_run hrest.split.1
    omega
  · rintro tr₁ y tr₂ c tr₃ o tr₄ x tr₅ t ts d rfl hy hc ho hno hx
    -- the call starts at an epoch above `d`, so the window it opens is above `d` too
    obtain ⟨-, hs, hrest⟩ := h.split
    have hlt := hy.lt_epoch hs
    obtain ⟨r, h₂, h₃⟩ := hrest.append_inv
    have := globalEpoch_run h₂
    obtain ⟨hsc, -⟩ := h₃.cons_inv
    obtain ⟨h₄, -, -⟩ := hrest.split
    have := globalEpoch_run h₄
    exact lt_of_opensWindow h₃ (by omega) hc ho hno hx

/-- A write, and a snapshot that opens the first window after it. -/
def writeThenSnapshot {T : Type} (t u : T) : List (SysAction T Unit) :=
  [.register t, .register u, .call t .prepare, .run t, .call u (.takeSnapshot 0 0)]
    ++ List.replicate 17 (.run u)

theorem snapshots_cut_first :
    ∃ tr s, Run step (init ℚ (Fin 2) Unit) tr s ∧ tr.length = 22 ∧ s.held 1 = [2]
      ∧ ∀ tr₁ x tr₂ t ts, tr = tr₁ ++ x :: tr₂ → ReturnsSnapshot x t ts →
        1 ≤ ts ∧ ∃ r ∈ visited (init ℚ (Fin 2) Unit) tr₁, r.sys.globalEpoch = ts := by
  obtain ⟨tr, s, hrun, hp⟩ := exists_run_of_replay step (init ℚ (Fin 2) Unit)
    (writeThenSnapshot 0 1)
    (fun tr s => decide (tr.length = 22) && decide (s.held 1 = [2])) (by decide +kernel)
  simp only [Bool.and_eq_true, decide_eq_true_eq] at hp
  exact ⟨tr, s, hrun, hp.1, hp.2, (snapshots_cut hrun).1⟩

end SysState

end Pacer.Atomic
