import Pacer.Store.Chain

set_option autoImplicit false

/-! # Is a snapshot complete when it is acquired?

A snapshot at `ts` needs, for every key, the newest version born before `ts`. A call that
opens a window reads the current epoch, and everything freed so far was superseded before it.
A call that coalesces returns a timestamp chosen earlier, and nothing keeps that timestamp
announced after the last release: a `post_write` in between may free what it reads.
`acquires_complete_iff` says exactly which histories avoid this.
-/

namespace Pacer.Store

open Machine

section

variable {F K : Type} [F64 F] [DecidableEq K] {n : Nat}

/-- `b` is the birth timestamp of the newest version of `key` born before `ts`. -/
def IsNewestBelow (s : State F K n) (key : K) (ts b : Nat) : Prop :=
  b ∈ s.versions key ∧ b < ts ∧ ∀ b' ∈ s.versions key, b' < ts → b' ≤ b

/-- No key's newest version born before `ts` has been freed. -/
def CompleteAt (s : State F K n) (ts : Nat) : Prop :=
  ∀ key b, IsNewestBelow s key ts b → ∀ v ∈ s.freed, ¬ (v.key = key ∧ v.birthTs = b)

/-- Whatever `take_snapshot` returns from `s`, on any thread and at any time, is complete. -/
def AcquiresComplete (s : State F K n) : Prop :=
  ∀ t nowNs elapsed s' ts, step s (.takeSnapshot t nowNs elapsed) = some s' →
    s'.held t = ts :: s.held t → CompleteAt s' ts

/-- The published window can be coalesced into. -/
def WindowLive (scc : Scc) : Prop := scc.windowGen ≠ 0 ∧ 0 < scc.adaptiveWNs

/-- No entry a `post_write` reaches is one that a coalesced snapshot would read. -/
def SparesWindow (x : Trans (State F K n) (Action K n)) : Prop :=
  ∀ t, x.act = .postWrite t → WindowLive x.pre.sys.scc →
    ∀ e, reaches x.pre t e → ¬ e.2.ptr.visibleAt x.pre.sys.scc.currentTs

/-! ## Completeness in terms of the freed versions -/

omit [F64 F] [DecidableEq K] in
/-- A superseded version is the newest below `ts` exactly when a snapshot at `ts` reads it. -/
theorem isNewestBelow_iff {s : State F K n} {v : Version K} (h : Superseded s v) {ts : Nat} :
    IsNewestBelow s v.key ts v.birthTs ↔ v.visibleAt ts := by
  constructor
  · rintro ⟨-, hlt, hmax⟩
    refine ⟨hlt, ?_⟩
    by_contra hret
    have := hmax v.retiredAt h.replaced (not_le.mp hret)
    have := h.lt
    omega
  · rintro ⟨hlt, hret⟩
    refine ⟨h.born, hlt, fun b hb hbts => ?_⟩
    rcases h.next b hb with hle | hge
    · exact hle
    · omega

omit [F64 F] [DecidableEq K] in
theorem completeAt_iff {s : State F K n} (h : Chained s) {ts : Nat} :
    CompleteAt s ts ↔ ∀ v ∈ s.freed, ¬ v.visibleAt ts := by
  constructor
  · intro hc v hv hvis
    exact hc v.key v.birthTs
      ((isNewestBelow_iff (h.superseded v (Or.inl hv))).mpr hvis) v hv ⟨rfl, rfl⟩
  · rintro hf key b hnew v hv ⟨rfl, rfl⟩
    exact hf v hv ((isNewestBelow_iff (h.superseded v (Or.inl hv))).mp hnew)

/-- No snapshot that coalesces into the published window would miss a freed version. -/
def WindowClean (s : State F K n) : Prop :=
  WindowLive s.sys.scc → ∀ v ∈ s.freed, ¬ v.visibleAt s.sys.scc.currentTs

omit [F64 F] [DecidableEq K] in
/-- What was freed was superseded before the current epoch. -/
theorem not_visibleAt_epoch {s : State F K n} (h : Chained s) {v : Version K}
    (hv : v ∈ s.freed) : ¬ v.visibleAt s.sys.globalEpoch := by
  intro hvis
  have := h.births_lt v.key _ (h.superseded v (Or.inl hv)).replaced
  have := hvis.2
  omega

theorem windowClean_step {s s' : State F K n} {a : Action K n} (h : Chained s)
    (hw : WindowClean s) (hs : step s a = some s') (hspare : SparesWindow ⟨s, a, s'⟩) :
    WindowClean s' := by
  cases a with
  | prepare t key =>
      obtain ⟨-, rfl⟩ := step_prepare hs
      exact hw
  | postWrite t =>
      obtain ⟨old, safeTs, hp, hsafe, -, -, -, hfreed, -, -, -, -, hscc, -⟩ := step_postWrite hs
      intro hlive v hv
      rw [hscc] at hlive ⊢
      by_cases hold : v ∈ s.freed
      · exact hw hlive v hold
      · -- freed just now, so it was within reach
        have hnew : v ∈ freedBy ⟨s, .postWrite t, s'⟩ := by
          rw [hfreed, List.mem_append] at hv
          simpa [freedBy, hfreed] using hv.resolve_left hold
        obtain ⟨e, he, rfl⟩ := (mem_freedBy_postWrite hs).mp hnew
        exact hspare t rfl hlive e he
  | takeSnapshot t nowNs elapsed =>
      obtain ⟨scc, ts, hts, -, -, hscc, -, -, -, -, -, hfreed⟩ := step_takeSnapshot hs
      intro hlive v hv
      rw [hscc] at hlive ⊢
      rw [hfreed] at hv
      obtain ⟨-, ⟨-, -, rfl⟩ | ⟨-, -, -, hcur, -⟩⟩ := Scc.takeSnapshot_spec hts
      · exact hw hlive v hv
      · -- the new window has the current epoch for its timestamp
        show ¬ v.visibleAt scc.currentTs
        rw [hcur]
        exact not_visibleAt_epoch h hv
  | release t =>
      obtain ⟨-, hsys, -, -, -, hfreed⟩ := step_release hs
      intro hlive v hv
      rw [hsys] at hlive ⊢
      exact hw hlive v (hfreed ▸ hv)

/-- From a clean window every acquisition is complete, on either path. -/
theorem acquiresComplete_of_clean {s : State F K n} (h : Chained s) (hw : WindowClean s) :
    AcquiresComplete s := by
  intro t nowNs elapsed s' ts hs hheld
  have h' := chained_step h hs
  obtain ⟨scc, ts', hts, -, hheld', -, -, -, -, -, -, hfreed⟩ := step_takeSnapshot hs
  obtain rfl : ts' = ts := by
    rw [hheld', Function.update_self, List.cons.injEq] at hheld
    exact hheld.1
  rw [completeAt_iff h', hfreed]
  obtain ⟨-, ⟨hc, rfl, -⟩ | ⟨-, rfl, -⟩⟩ := Scc.takeSnapshot_spec hts
  · exact hw ⟨hc.1, by have := hc.2; omega⟩
  · exact fun v hv => not_visibleAt_epoch h hv

/-- A live window that is not clean lets some acquisition miss a freed version: a call at the
window's own open time coalesces. -/
theorem clean_of_acquiresComplete {s : State F K n} (h : Chained s)
    (hc : s.sys.announce.activeCount ≤ maxThreads) (t : Fin n) (hacq : AcquiresComplete s) :
    WindowClean s := by
  intro hlive v hv hvis
  obtain ⟨scc, ts, hts⟩ := Scc.takeSnapshot_isSome (F := F) h.gen_even s.sys.scc.windowOpenAt
    s.sys.globalEpoch
  have htid : (s.tls t).tid < maxThreads := by
    rw [h.tid]
    have := t.isLt
    have := h.count
    omega
  -- the call at the open time of the window goes through
  have hstep : ∃ s', step s (.takeSnapshot t s.sys.scc.windowOpenAt 0) = some s' := by
    simp only [step, PacerSystem.takeSnapshot, hts, PacerSystem.announceSnapshot,
      AnnouncementTable.announce, AnnouncementTable.store]
    rw [if_pos htid]
    exact ⟨_, rfl⟩
  obtain ⟨s', hs⟩ := hstep
  have h' := chained_step h hs
  obtain ⟨scc', ts', hts', -, hheld, -, -, -, -, -, -, hfreed⟩ := step_takeSnapshot hs
  have hcomp := hacq t _ _ s' ts' hs (by rw [hheld, Function.update_self])
  rw [completeAt_iff h', hfreed] at hcomp
  obtain ⟨-, ⟨-, rfl, -⟩ | ⟨hmiss, -⟩⟩ := Scc.takeSnapshot_spec hts'
  · exact hcomp v hv hvis
  · exact hmiss ⟨hlive.1, by simpa using hlive.2⟩

/-- **When acquisitions are complete.** In every history, every snapshot that could be taken
at any point of it is complete if and only if no `post_write` reaches a version that the live
window's timestamp still reads. -/
theorem acquires_complete_iff {s : State F K n}
    {tr : List (Trans (State F K n) (Action K n))} (hrun : Run step (init F K n) tr s) :
    (∀ r ∈ visited (init F K n) tr, AcquiresComplete r) ↔ (∀ x ∈ tr, SparesWindow x) := by
  constructor
  · -- a transition that reaches such a version leaves a window that is not clean
    intro hacq x hx t hact hlive e he hvis
    obtain ⟨tr', ⟨l, rfl⟩, h₁, h₂⟩ := hrun.of_mem hx
    obtain ⟨s₁, a, s₂⟩ := x
    obtain rfl : a = .postWrite t := hact
    have hch₁ := h₁.invariant chained_init (fun _ _ _ h hs => chained_step h hs)
    have hch₂ := chained_step hch₁ h₂
    obtain ⟨_, _, -, hsafe, -, -, -, hfreed, -, -, -, -, hscc, hann⟩ := step_postWrite h₂
    have hcount := AnnouncementTable.count_le_of_minActiveTs hsafe
    have hclean := clean_of_acquiresComplete hch₂ (by rw [hann]; exact hcount) t
      (hacq s₂ (by simp [visited]))
    have hfree : e.2.ptr ∈ s₂.freed := by
      have := (mem_freedBy_postWrite h₂).mpr ⟨e, he, rfl⟩
      exact List.mem_of_mem_drop this
    rw [WindowClean, hscc] at hclean
    exact hclean hlive _ hfree hvis
  · intro hspare r hr
    obtain ⟨tr₁, tr₂, rfl, h₁⟩ := hrun.prefix_of_visited hr
    have hI : Chained r ∧ WindowClean r := by
      refine h₁.invariant_of (I := fun r => Chained r ∧ WindowClean r) (C := SparesWindow)
        (fun x hx => hspare x (List.mem_append_left _ hx)) ⟨chained_init, ?_⟩ ?_
      · intro _ v hv
        simp [init] at hv
      · exact fun _ _ _ hI hs hC => ⟨chained_step hI.1 hs, windowClean_step hI.1 hI.2 hs hC⟩
    exact acquiresComplete_of_clean hI.1 hI.2

end

/-! ## A coalesced snapshot that comes too late

A window opens at epoch `2` and its only snapshot is released; the write at `2` supersedes the
version born at `1`, and nothing being announced it is freed at once. A call 50 µs after the
window opened still coalesces and returns `2`. -/

def lateHistory : List (Action Unit 1) :=
  [.prepare 0 (), .takeSnapshot 0 0 0, .release 0, .prepare 0 (), .postWrite 0]

/-- The state after the late call, as far as it matters. -/
def lateCall (s : State ℚ Unit 1) : Option (List Nat × List Nat × List (Version Unit)) :=
  (step s (.takeSnapshot 0 50000 0)).map fun s' => (s'.held 0, s'.versions (), s'.freed)

theorem coalesced_snapshot_incomplete :
    ∃ tr s s' ts, Run step (init ℚ Unit 1) tr s
      ∧ step s (.takeSnapshot 0 50000 0) = some s' ∧ s'.held 0 = ts :: s.held 0
      ∧ ¬ CompleteAt s' ts := by
  obtain ⟨tr, s, hrun, hp⟩ := exists_run_of_replay step (init ℚ Unit 1) lateHistory
    (fun _ s => decide (s.held 0 = [])
      && decide (lateCall s = some ([2], [2, 1], [⟨(), 1, 2⟩]))) (by decide +kernel)
  simp only [Bool.and_eq_true, decide_eq_true_eq, lateCall, Option.map_eq_some_iff,
    Prod.mk.injEq] at hp
  obtain ⟨hnone, s', hs, hheld, hver, hfreed⟩ := hp
  refine ⟨tr, s, s', 2, hrun, hs, by rw [hheld, hnone], fun hc => ?_⟩
  exact hc () 1 (by simp [IsNewestBelow, hver]) ⟨(), 1, 2⟩ (by simp [hfreed]) ⟨rfl, rfl⟩

theorem acquires_complete_iff_late :
    ∃ tr s, Run step (init ℚ Unit 1) tr s ∧ tr.length = 5
      ∧ ((∀ r ∈ visited (init ℚ Unit 1) tr, AcquiresComplete r) ↔
          (∀ x ∈ tr, SparesWindow x)) := by
  obtain ⟨tr, s, hrun, hp⟩ := exists_run_of_replay step (init ℚ Unit 1) lateHistory
    (fun tr _ => decide (tr.length = 5)) (by decide +kernel)
  exact ⟨tr, s, hrun, of_decide_eq_true hp, acquires_complete_iff hrun⟩

end Pacer.Store
