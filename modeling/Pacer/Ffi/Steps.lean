import Pacer.Ffi.Model
import Pacer.Atomic.Announce

set_option autoImplicit false

/-! # What the steps of the FFI path can do

A step of a thread changes its own program counter and limbo bag and nobody else's
(`step_cases`). Nothing in `run_once` announces a timestamp, neither while the tree is filled
(`Prepopulated.slots`) nor in the part of `drain_discrete_tick` and what follows it (`GcPc`);
so every scan returns `u64::MAX`.
-/

namespace Pacer.Ffi

open Machine Atomic

section

variable {F P : Type} [F64 F]

/-! ## The announcement table while the tree is filled -/

theorem insertAlone_announce {s s' : Filling F P} {retired : List (Nat × P)}
    (h : insertAlone s retired = some s') : s'.sys.announce = s.sys.announce := by
  unfold insertAlone at h
  dsimp only at h
  split at h
  · cases h
  · rename_i t freed _
    split at h
    · obtain ⟨r, hr, rfl⟩ := Option.map_eq_some_iff.mp h
      obtain ⟨-, -, hann, -⟩ := PacerSystem.reclaimDiscrete_frame hr
      exact hann.trans (PacerSystem.resampleSpi_frame s.sys t).2.2.1
    · cases h
      rfl

theorem foldlM_insertAlone_announce {calls : List (List (Nat × P))} {s s' : Filling F P}
    (h : calls.foldlM insertAlone s = some s') : s'.sys.announce = s.sys.announce := by
  induction calls generalizing s with
  | nil =>
      cases h
      rfl
  | cons retired calls ih =>
      rw [List.foldlM_cons] at h
      cases hs : insertAlone s retired with
      | none => rw [hs] at h; cases h
      | some s₁ =>
          rw [hs] at h
          exact (ih h).trans (insertAlone_announce hs)

/-- Nothing is announced when the run loop begins. -/
theorem Prepopulated.slots (p : Prepopulated F P) (i : Nat) : p.sys.announce.slots i = 0 := by
  obtain ⟨calls, t, -, hp⟩ := p.reached
  simp only [prepopulate, PacerSystem.registerThread, AnnouncementTable.register] at hp
  split at hp
  · cases hp
  · rw [foldlM_insertAlone_announce hp]
    rfl

/-! ## The tail of an operation under PACER -/

/-- The instructions of `drain_discrete_tick`, `resample_spi` and `reclaim_discrete`; a scan
has found nothing announced. -/
def GcPc : SysPc F → Prop
  | .scanSlot _ _ min => min = u64Max
  | .unregistered | .scc _ _ | .latencyLoad _ _ | .latencyStore _ _ _ | .announce _ | .release
  | .prepare => False
  | .idle | .panicked | .scanCount | .drain _ _ | .storeSpi | .storeDelta _ | .advanceLoad _
  | .advanceCas _ _ => True

theorem gcPc_afterResample (t : ThreadLocalState F P) : GcPc (afterResample t).2 := by
  rcases afterResample_pc t with h | h | h <;> rw [h] <;> trivial

theorem gcPc_afterDrain (t : ThreadLocalState F P) : GcPc (afterDrain t).2 := by
  rcases afterDrain_pc t with h | h | h | h <;> rw [h] <;> trivial

theorem afterResample_bag (t : ThreadLocalState F P) :
    (afterResample t).1.limboBag = t.limboBag := by
  unfold afterResample
  dsimp only
  cases selectGcModeWithHysteresis t.spiEma t.gcMode with
  | conservativeHold => rfl
  | aggressiveEbr | amortisedFree =>
      dsimp only
      cases PacerSystem.strides t.opCounter (PacerSystem.computeEpochStride t.spiEma) <;> rfl

theorem afterDrain_bag (t : ThreadLocalState F P) :
    (afterDrain t).1.limboBag = t.limboBag := by
  unfold afterDrain
  split
  · split
    · exact afterResample_bag t
    · rfl
  · rfl

/-- How an instruction of the tail enters or continues the drain: the scan is over and found
nothing, or a node was freed. -/
inductive GcDrain (t : ThreadLocalState F P) (q : SysPc F) (bag : LimboBag P) (safeTs k : Nat) :
    Prop
  | start (n i : Nat) (hq : q = .scanSlot n i u64Max) (hi : ¬ i < n) (hbag : bag = t.limboBag)
      (hts : safeTs = u64Max) (hk : k = tickBudget t.gcMode t.holdTicks)
  | pop (k₀ : Nat) (e : Nat × Retired P) (hq : q = .drain safeTs k₀)
      (hf : nextFreed t safeTs k₀ = some e) (hbag : bag = ⟨t.limboBag.q.tail⟩) (hk : k = k₀ - 1)

/-- **The instructions of the tail** stay in the tail, announce nothing and only take from the
bag. -/
theorem threadStep_gc {sys sys' : PacerSystem F} {t t' : ThreadLocalState F P} {q q' : SysPc F}
    (h : threadStep sys t q = some (sys', t', q')) (hslots : ∀ i, sys.announce.slots i = 0)
    (hq : GcPc q) :
    sys'.announce = sys.announce ∧ GcPc q'
      ∧ (∀ e ∈ t'.limboBag.q, e ∈ t.limboBag.q)
      ∧ ∀ safeTs k, q' = .drain safeTs k → GcDrain t q t'.limboBag safeTs k := by
  cases threadStep_cases h with
  | scc | sccReturns | sccEnds | latencyLoad | latencyStore | announce | release | prepare =>
      cases hq
  | panic => exact ⟨rfl, trivial, fun _ he => he, by rintro _ _ ⟨⟩⟩
  | scanSlot n i min hi =>
      cases hq
      refine ⟨rfl, ?_, fun _ he => he, by rintro _ _ ⟨⟩⟩
      rw [hslots i]
      exact AnnouncementTable.scanMin_zero u64Max
  | scanEnd n i min hi =>
      cases hq
      refine ⟨rfl, trivial, fun _ he => he, ?_⟩
      rintro safeTs k hd
      cases hd
      exact .start n i rfl hi rfl rfl rfl
  | pop safeTs k e hf =>
      refine ⟨rfl, trivial, fun _ he => List.mem_of_mem_tail he, ?_⟩
      rintro safeTs' k' hd
      cases hd
      exact .pop k e rfl hf rfl rfl
  | drainEnd safeTs k hf =>
      refine ⟨rfl, gcPc_afterDrain t, fun e he => by rwa [afterDrain_bag] at he, ?_⟩
      intro safeTs' k' hd
      rcases afterDrain_pc t with h | h | h | h <;> rw [h] at hd <;> cases hd
  | storeDelta prevEma =>
      refine ⟨rfl, gcPc_afterResample _, fun e he => by rwa [afterResample_bag] at he, ?_⟩
      intro safeTs' k' hd
      rcases afterResample_pc { t with winWrites := 0, winSnaps := 0 } with h | h | h <;>
        rw [h] at hd <;> cases hd
  | advanceCas b cur =>
      refine ⟨rfl, trivial, fun e he => ?_, by rintro _ _ ⟨⟩⟩
      cases b <;> exact he
  | scanCount => exact ⟨rfl, rfl, fun _ he => he, by rintro _ _ ⟨⟩⟩
  | storeSpi | advanceLoad => exact ⟨rfl, trivial, fun _ he => he, by rintro _ _ ⟨⟩⟩

end

/-! ## Inversion of a step -/

section

variable {F T P : Type} [F64 F] [DecidableEq T]

/-- What a step of thread `t` does: to the system, to its own state and program counter, and to
the clock. -/
inductive LocalStep (strat : Strat) (s : State F T P) (t : T) : Action T P →
    PacerSystem F → ThreadLocalState F (Node P) → Pc F → Nat → Prop
  | register (tid : Nat) (q : Pc F) (hpc : s.pc t = .unregistered)
      (hq : q = .idle ∨ q = .panicked) :
      LocalStep strat s t (.register t) s.sys.registerThread.1 (ThreadLocalState.new tid) q
        s.clock
  | call (c : TreeCall) (tls : ThreadLocalState F (Node P)) (hpc : s.pc t = .idle)
      (hbag : tls.limboBag = (s.tls t).limboBag) :
      LocalStep strat s t (.call t c) s.sys tls (.enter c) s.clock
  | enter (c : TreeCall) (hpc : s.pc t = .enter c) :
      LocalStep strat s t (.run t) s.sys (s.tls t) (.inTree c s.clock) (s.clock + 1)
  | retire (c : TreeCall) (start birthTs : Nat) (ptr : P) (hpc : s.pc t = .inTree c start) :
      LocalStep strat s t (.retire t birthTs ptr) s.sys
        (pacerRetireCb (s.tls t) birthTs ⟨ptr, s.clock⟩) (.inTree c start) (s.clock + 1)
  | ret (c : TreeCall) (start : Nat) (q : Pc F) (hpc : s.pc t = .inTree c start)
      (hq : q = .idle ∨ q = .gc .scanCount ∨ q = .ebrLoad) :
      LocalStep strat s t (.ret t) s.sys (s.tls t) q s.clock
  | gc (q : SysPc F) (sys : PacerSystem F) (tls : ThreadLocalState F (Node P)) (q' : SysPc F)
      (hpc : s.pc t = .gc q) (h : threadStep s.sys (s.tls t) q = some (sys, tls, q')) :
      LocalStep strat s t (.run t) sys tls (afterGc q') s.clock
  | ebrLoad (hpc : s.pc t = .ebrLoad) :
      LocalStep strat s t (.run t) s.sys (s.tls t)
        (.ebrDrain (s.ebrEpoch - 2) (ebrBudget strat)) s.clock
  | ebrPop (safeTs k : Nat) (e : Nat × Retired (Node P)) (hpc : s.pc t = .ebrDrain safeTs k)
      (hf : nextFreed (s.tls t) safeTs k = some e) :
      LocalStep strat s t (.run t) s.sys
        { s.tls t with limboBag := ⟨(s.tls t).limboBag.q.tail⟩ } (.ebrDrain safeTs (k - 1))
        s.clock
  | ebrRest (q : Pc F) (hpc : (∃ safeTs k, s.pc t = .ebrDrain safeTs k) ∨ s.pc t = .ebrRead
        ∨ ∃ e, s.pc t = .ebrCas e)
      (hq : q = .idle ∨ q = .ebrRead ∨ ∃ e, q = .ebrCas e) :
      LocalStep strat s t (.run t) s.sys (s.tls t) q s.clock

/-- The state after a step of thread `t`, as far as `LocalStep` describes it. -/
structure Becomes (s s' : State F T P) (t : T) (sys : PacerSystem F)
    (tls : ThreadLocalState F (Node P)) (q : Pc F) (clock : Nat) : Prop where
  sys : s'.sys = sys
  tls : s'.tls = Function.update s.tls t tls
  pc : s'.pc = Function.update s.pc t q
  clock : s'.clock = clock

section

omit [F64 F]

theorem becomes_countEbr (s : State F T P) (t : T) (q : Pc F) :
    ∃ q', (q' = .idle ∨ q' = q) ∧ Becomes s (countEbr s t q) t s.sys (s.tls t) q' s.clock := by
  refine ⟨if (s.ebrOps t + 1) % windowSize = 0 then q else .idle, ?_, rfl,
    (Function.update_eq_self t _).symm, rfl, rfl⟩
  split
  · exact Or.inr rfl
  · exact Or.inl rfl

/-- A thread that only moves on. -/
theorem becomes_move (s : State F T P) (t : T) (q : Pc F) :
    Becomes s { s with pc := Function.update s.pc t q } t s.sys (s.tls t) q s.clock :=
  ⟨rfl, (Function.update_eq_self t _).symm, rfl, rfl⟩

theorem becomes_beginOp (strat : Strat) (s : State F T P) (t : T) (c : TreeCall) :
    ∃ tls, tls.limboBag = (s.tls t).limboBag
      ∧ Becomes s (beginOp strat s t c) t s.sys tls (.enter c) s.clock := by
  cases c with
  | contains => exact ⟨s.tls t, rfl, becomes_move s t _⟩
  | insert | remove =>
      cases strat with
      | pacerDiscrete => exact ⟨countWrite (s.tls t), rfl, rfl, rfl, rfl, rfl⟩
      | batchEbr | tokenAf => exact ⟨countOp (s.tls t), rfl, rfl, rfl, rfl, rfl⟩

theorem becomes_afterCall (strat : Strat) (s : State F T P) (t : T) (c : TreeCall) :
    ∃ q, (q = .idle ∨ q = .gc .scanCount ∨ q = .ebrLoad)
      ∧ Becomes s (afterCall strat s t c) t s.sys (s.tls t) q s.clock := by
  cases c with
  | contains => exact ⟨.idle, Or.inl rfl, becomes_move s t _⟩
  | insert | remove =>
      cases strat with
      | pacerDiscrete => exact ⟨_, Or.inr (Or.inl rfl), becomes_move s t _⟩
      | tokenAf => exact ⟨_, Or.inr (Or.inr rfl), becomes_move s t _⟩
      | batchEbr =>
          -- the batch is drained every so many operations
          obtain ⟨q, hq, hb⟩ := becomes_countEbr s t .ebrLoad
          refine ⟨q, ?_, hb⟩
          rcases hq with rfl | rfl
          · exact Or.inl rfl
          · exact Or.inr (Or.inr rfl)

theorem becomes_afterEbrDrain (strat : Strat) (s : State F T P) (t : T) :
    ∃ q, (q = .idle ∨ q = .ebrRead)
      ∧ Becomes s (afterEbrDrain strat s t) t s.sys (s.tls t) q s.clock := by
  cases strat with
  | tokenAf => exact becomes_countEbr s t .ebrRead
  | batchEbr | pacerDiscrete => exact ⟨.ebrRead, Or.inr rfl, becomes_move s t _⟩

end

/-- Inversion of an instruction outside of the C call. -/
theorem runStep_cases {strat : Strat} {s s' : State F T P} {t : T}
    (h : runStep strat s t (s.pc t) = some s') :
    ∃ sys tls q clock, LocalStep strat s t (.run t) sys tls q clock
      ∧ Becomes s s' t sys tls q clock := by
  cases hp : s.pc t with
  | enter c =>
      rw [hp] at h
      cases h
      exact ⟨_, _, _, _, .enter c hp, rfl, (Function.update_eq_self t _).symm, rfl, rfl⟩
  | gc q =>
      rw [hp] at h
      obtain ⟨⟨sys, tls, q'⟩, hr, rfl⟩ := Option.map_eq_some_iff.mp h
      exact ⟨_, _, _, _, .gc q sys tls q' hp hr, rfl, rfl, rfl, rfl⟩
  | ebrLoad =>
      rw [hp] at h
      cases h
      exact ⟨_, _, _, _, .ebrLoad hp, becomes_move s t _⟩
  | ebrDrain safeTs k =>
      rw [hp] at h
      simp only [runStep] at h
      cases hf : nextFreed (s.tls t) safeTs k with
      | some e =>
          rw [hf] at h
          cases h
          exact ⟨_, _, _, _, .ebrPop safeTs k e hp hf, rfl, rfl, rfl, rfl⟩
      | none =>
          rw [hf] at h
          cases h
          obtain ⟨q, hq, hb⟩ := becomes_afterEbrDrain strat s t
          refine ⟨_, _, _, _, .ebrRest q (Or.inl ⟨safeTs, k, hp⟩) ?_, hb⟩
          exact hq.imp_right Or.inl
  | ebrRead =>
      rw [hp] at h
      cases h
      exact ⟨_, _, _, _, .ebrRest _ (Or.inr (Or.inl hp)) (Or.inr (Or.inr ⟨_, rfl⟩)),
        becomes_move s t _⟩
  | ebrCas e =>
      rw [hp] at h
      cases h
      exact ⟨_, _, _, _, .ebrRest _ (Or.inr (Or.inr ⟨e, hp⟩)) (Or.inl rfl), rfl,
        (Function.update_eq_self t _).symm, rfl, rfl⟩
  | unregistered | idle | panicked | inTree => rw [hp] at h; cases h

/-- **Inversion of a step.** -/
theorem step_cases {strat : Strat} {s s' : State F T P} {a : Action T P}
    (h : step strat s a = some s') :
    ∃ t sys tls q clock, LocalStep strat s t a sys tls q clock
      ∧ Becomes s s' t sys tls q clock := by
  cases a with
  | register t =>
      simp only [step] at h
      split at h
      · rename_i hp
        cases h
        refine ⟨t, _, _, _, _, .register _ _ hp ?_, rfl, rfl, rfl, rfl⟩
        split
        · exact Or.inl rfl
        · exact Or.inr rfl
      · cases h
  | call t c =>
      simp only [step] at h
      split at h
      · rename_i hp
        cases h
        obtain ⟨tls, hbag, hb⟩ := becomes_beginOp strat s t c
        exact ⟨t, _, _, _, _, .call c tls hp hbag, hb⟩
      · cases h
  | retire t birthTs ptr =>
      simp only [step] at h
      split at h
      · rename_i c start hp
        split at h
        · cases h
          refine ⟨t, _, _, _, _, .retire c start birthTs ptr hp, rfl, rfl, ?_, rfl⟩
          rw [← hp, Function.update_eq_self]
        · cases h
      · cases h
  | ret t =>
      simp only [step] at h
      split at h
      · rename_i c start hp
        cases h
        obtain ⟨q, hq, hb⟩ := becomes_afterCall strat s t c
        exact ⟨t, _, _, _, _, .ret c start q hp hq, hb⟩
      · cases h
  | run t => exact ⟨t, runStep_cases h⟩

end

end Pacer.Ffi
