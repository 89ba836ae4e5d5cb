import Pacer.Core.PacerSystem
import Pacer.Atomic.SccSteps

set_option autoImplicit false

/-! # The atomic steps of the system

Any number of threads register and run the operations of `PacerSystem`: `take_snapshot`,
`release_snapshot_for`, `write_op_prepare`, `post_write` and `try_advance_epoch`. As in
`Atomic/SccSteps.lean` a thread is a program counter, and each step performs one atomic
instruction on the shared state with the local computation up to the next one; the drain pops
one node per step. A panic ends the thread.

`held` records the snapshots that were returned to a thread and not yet released, latest
first. `toScc` forgets everything but the coordinator: a run of the system is a run of the
coordinator (`toScc_run`).
-/

namespace Pacer.Atomic

open Machine

/-- The next atomic instruction of a thread. -/
inductive SysPc (F : Type) where
  | unregistered
  | idle
  | panicked
  /-- `take_snapshot`, inside the coordinator. -/
  | scc (elapsed : Nat) (p : SccPc F)
  /-- `record_latency_ns`: `p99_ns.load()` -/
  | latencyLoad (elapsed ts : Nat)
  /-- `record_latency_ns`: `p99_ns.store()` -/
  | latencyStore (elapsed ts prev : Nat)
  /-- `slots[tid].store(ts)`, then `take_snapshot` returns `ts` -/
  | announce (ts : Nat)
  /-- `slots[tid].store(0)` -/
  | release
  /-- `global_epoch.fetch_add(1)` of `write_op_prepare` -/
  | prepare
  /-- `post_write`, `min_active_ts`: `active_count.load()` -/
  | scanCount
  /-- `min_active_ts`: the loop over the `n` slots, at slot `i` -/
  | scanSlot (n i min : Nat)
  /-- the loop of `drain` with `k` rounds to go -/
  | drain (safeTs k : Nat)
  /-- `resample_spi`: `approx_spi.store()` -/
  | storeSpi
  /-- `resample_spi`: `delta_spi.store()` -/
  | storeDelta (prevEma : F)
  /-- `try_advance_epoch`: `global_epoch.load()`; called by `step_epoch` or directly -/
  | advanceLoad (fromStepEpoch : Bool)
  /-- `try_advance_epoch`: `global_epoch.compare_exchange(cur, cur + 1)` -/
  | advanceCas (fromStepEpoch : Bool) (cur : Nat)

/-- The thread has registered, whatever became of it. -/
def SysPc.registered {F : Type} : SysPc F → Bool
  | .unregistered => false
  | _ => true

/-- The operations a registered thread may call. -/
inductive SysCall (P : Type) where
  /-- `elapsed` is the duration the call will measure. -/
  | takeSnapshot (nowNs elapsed : Nat)
  | release
  | prepare
  | postWrite (oldPtr : P) (oldTs : Nat)
  | tryAdvance
  deriving DecidableEq

inductive SysAction (T P : Type) where
  | register (t : T)
  | call (t : T) (c : SysCall P)
  /-- Thread `t` performs its next instruction. -/
  | run (t : T)
  deriving DecidableEq

structure SysState (F T P : Type) where
  sys : PacerSystem F
  tls : T → ThreadLocalState F P
  pc : T → SysPc F
  /-- Snapshots returned to the thread and not yet released, latest first. -/
  held : T → List Nat
  opened : List Window

/-! ## One thread -/

section

variable {F P : Type} [F64 F]

/-- The part of a call before its first atomic instruction. -/
def start (t : ThreadLocalState F P) : SysCall P → ThreadLocalState F P × SysPc F
  | .takeSnapshot nowNs elapsed =>
      ({ t with winSnaps := t.winSnaps + 1 }, .scc elapsed (.count nowNs))
  | .release => (t, .release)
  | .prepare =>
      ({ t with winWrites := t.winWrites + 1, opCounter := t.opCounter + 1 }, .prepare)
  | .postWrite oldPtr oldTs => ({ t with limboBag := t.limboBag.push oldTs oldPtr }, .scanCount)
  | .tryAdvance => (t, .advanceLoad false)

/-- The coordinator returns its timestamp when it has no next instruction. -/
def afterScc (elapsed : Nat) (p : SccPc F) : Option (SccPc F) → SysPc F
  | some q => .scc elapsed q
  | none =>
      match p.returns with
      | some ts => .latencyLoad elapsed ts
      | none => .idle

/-- `reclaim_discrete` up to the epoch advance. -/
def afterResample (t : ThreadLocalState F P) : ThreadLocalState F P × SysPc F :=
  let spi := t.spiEma
  let mode := selectGcModeWithHysteresis spi t.gcMode
  let t := { t with gcMode := mode }
  match mode with
  | .aggressiveEbr | .amortisedFree =>
      match PacerSystem.strides t.opCounter (PacerSystem.computeEpochStride spi) with
      | none => (t, .panicked)
      | some b => (t, if b then .advanceLoad true else .idle)
  | .conservativeHold => (t, .idle)

/-- `post_write` after its drain. -/
def afterDrain (t : ThreadLocalState F P) : ThreadLocalState F P × SysPc F :=
  if t.opCounter % windowSize = 0 then
    if t.winWrites + t.winSnaps = 0 then afterResample t else (t, .storeSpi)
  else (t, .idle)

theorem afterResample_pc (t : ThreadLocalState F P) :
    (afterResample t).2 = .idle ∨ (afterResample t).2 = .panicked
      ∨ (afterResample t).2 = .advanceLoad true := by
  unfold afterResample
  dsimp only
  cases selectGcModeWithHysteresis t.spiEma t.gcMode with
  | conservativeHold => exact Or.inl rfl
  | aggressiveEbr | amortisedFree =>
      dsimp only
      cases PacerSystem.strides t.opCounter (PacerSystem.computeEpochStride t.spiEma) with
      | none => exact Or.inr (Or.inl rfl)
      | some b =>
          cases b
          · exact Or.inl rfl
          · exact Or.inr (Or.inr rfl)

theorem afterResample_tid (t : ThreadLocalState F P) : (afterResample t).1.tid = t.tid := by
  unfold afterResample
  dsimp only
  cases selectGcModeWithHysteresis t.spiEma t.gcMode with
  | conservativeHold => rfl
  | aggressiveEbr | amortisedFree =>
      dsimp only
      cases PacerSystem.strides t.opCounter (PacerSystem.computeEpochStride t.spiEma) <;> rfl

theorem afterDrain_tid (t : ThreadLocalState F P) : (afterDrain t).1.tid = t.tid := by
  unfold afterDrain
  split
  · split
    · exact afterResample_tid t
    · rfl
  · rfl

theorem afterDrain_pc (t : ThreadLocalState F P) :
    (afterDrain t).2 = .idle ∨ (afterDrain t).2 = .panicked
      ∨ (afterDrain t).2 = .advanceLoad true ∨ (afterDrain t).2 = .storeSpi := by
  unfold afterDrain
  split
  · split
    · rcases afterResample_pc t with h | h | h
      · exact Or.inl h
      · exact Or.inr (Or.inl h)
      · exact Or.inr (Or.inr (Or.inl h))
    · exact Or.inr (Or.inr (Or.inr rfl))
  · exact Or.inl rfl

/-- The entry that `drain` pops in its next round. -/
def nextFreed (t : ThreadLocalState F P) (safeTs k : Nat) : Option (Nat × Retired P) :=
  match k, t.limboBag.q with
  | 0, _ => none
  | _ + 1, [] => none
  | _ + 1, e :: _ => if e.1 < safeTs then some e else none

def threadStep (sys : PacerSystem F) (t : ThreadLocalState F P) :
    SysPc F → Option (PacerSystem F × ThreadLocalState F P × SysPc F)
  | .unregistered | .idle | .panicked => none
  | .scc elapsed p =>
      let r := sccStep sys.scc sys.globalEpoch p
      some ({ sys with scc := r.1 }, t, afterScc elapsed p r.2)
  | .latencyLoad elapsed ts => some (sys, t, .latencyStore elapsed ts sys.scc.p99Ns)
  | .latencyStore elapsed ts prev =>
      some ({ sys with scc := { sys.scc with p99Ns := Scc.smoothed F prev elapsed } }, t,
        .announce ts)
  | .announce ts =>
      match sys.announceSnapshot t.tid ts with
      | none => some (sys, t, .panicked)
      | some sys => some (sys, t, .idle)
  | .release =>
      match sys.releaseSnapshot t.tid with
      | none => some (sys, t, .panicked)
      | some sys => some (sys, t, .idle)
  | .prepare => some ({ sys with globalEpoch := sys.globalEpoch + 1 }, t, .idle)
  | .scanCount => some (sys, t, .scanSlot sys.announce.activeCount 0 u64Max)
  | .scanSlot n i min =>
      if i < n then
        match sys.announce.load i with
        | none => some (sys, t, .panicked)
        | some ts => some (sys, t, .scanSlot n (i + 1) (AnnouncementTable.scanMin min ts))
      else
        some (sys, { t with holdTicks := tickHold t.gcMode t.holdTicks },
          .drain min (tickBudget t.gcMode t.holdTicks))
  | .drain safeTs k =>
      match nextFreed t safeTs k with
      | some _ =>
          some (sys, { t with limboBag := ⟨t.limboBag.q.tail⟩ }, .drain safeTs (k - 1))
      | none => some (sys, (afterDrain t).1, (afterDrain t).2)
  | .storeSpi =>
      let prevEma := t.spiEma
      let spiEma := PacerSystem.nextEma prevEma t.winWrites t.winSnaps
      some ({ sys with approxSpi := spiEma }, { t with spiEma := spiEma }, .storeDelta prevEma)
  | .storeDelta prevEma =>
      let t := { t with winWrites := 0, winSnaps := 0 }
      some ({ sys with deltaSpi := t.spiEma - prevEma }, (afterResample t).1,
        (afterResample t).2)
  | .advanceLoad b => some (sys, t, .advanceCas b sys.globalEpoch)
  | .advanceCas b cur =>
      let r := compareExchange sys.globalEpoch cur (cur + 1)
      some ({ sys with globalEpoch := r.1 },
        if b then { t with failStreak := PacerSystem.streakAfter t.failStreak r.2 } else t,
        .idle)

/-- What the next instruction of a thread does, one constructor for each outcome. -/
inductive Instr (sys : PacerSystem F) (t : ThreadLocalState F P) :
    SysPc F → PacerSystem F → ThreadLocalState F P → SysPc F → Prop
  | scc (elapsed : Nat) (p r : SccPc F) (hr : (sccStep sys.scc sys.globalEpoch p).2 = some r) :
      Instr sys t (.scc elapsed p) { sys with scc := (sccStep sys.scc sys.globalEpoch p).1 } t
        (.scc elapsed r)
  | sccReturns (elapsed ts : Nat) (p : SccPc F)
      (hr : (sccStep sys.scc sys.globalEpoch p).2 = none) (hret : p.returns = some ts) :
      Instr sys t (.scc elapsed p) { sys with scc := (sccStep sys.scc sys.globalEpoch p).1 } t
        (.latencyLoad elapsed ts)
  /-- not reached: a call returns with a timestamp -/
  | sccEnds (elapsed : Nat) (p : SccPc F)
      (hr : (sccStep sys.scc sys.globalEpoch p).2 = none) (hret : p.returns = none) :
      Instr sys t (.scc elapsed p) { sys with scc := (sccStep sys.scc sys.globalEpoch p).1 } t
        .idle
  | latencyLoad (elapsed ts : Nat) :
      Instr sys t (.latencyLoad elapsed ts) sys t (.latencyStore elapsed ts sys.scc.p99Ns)
  | latencyStore (elapsed ts prev : Nat) :
      Instr sys t (.latencyStore elapsed ts prev)
        { sys with scc := { sys.scc with p99Ns := Scc.smoothed F prev elapsed } } t (.announce ts)
  | announce (ts : Nat) (htid : t.tid < maxThreads) :
      Instr sys t (.announce ts)
        { sys with announce := { sys.announce with
            slots := Function.update sys.announce.slots t.tid ts } } t .idle
  | release (htid : t.tid < maxThreads) :
      Instr sys t .release
        { sys with announce := { sys.announce with
            slots := Function.update sys.announce.slots t.tid 0 } } t .idle
  /-- an index beyond the table -/
  | panic (p : SysPc F)
      (hp : (∃ ts, p = .announce ts) ∨ p = .release ∨ ∃ n i min, p = .scanSlot n i min) :
      Instr sys t p sys t .panicked
  | prepare : Instr sys t .prepare { sys with globalEpoch := sys.globalEpoch + 1 } t .idle
  | scanCount : Instr sys t .scanCount sys t (.scanSlot sys.announce.activeCount 0 u64Max)
  | scanSlot (n i min : Nat) (hi : i < n) :
      Instr sys t (.scanSlot n i min) sys t
        (.scanSlot n (i + 1) (AnnouncementTable.scanMin min (sys.announce.slots i)))
  | scanEnd (n i min : Nat) (hi : ¬ i < n) :
      Instr sys t (.scanSlot n i min) sys
        { t with holdTicks := tickHold t.gcMode t.holdTicks }
        (.drain min (tickBudget t.gcMode t.holdTicks))
  | pop (safeTs k : Nat) (e : Nat × Retired P) (hf : nextFreed t safeTs k = some e) :
      Instr sys t (.drain safeTs k) sys { t with limboBag := ⟨t.limboBag.q.tail⟩ }
        (.drain safeTs (k - 1))
  | drainEnd (safeTs k : Nat) (hf : nextFreed t safeTs k = none) :
      Instr sys t (.drain safeTs k) sys (afterDrain t).1 (afterDrain t).2
  | storeSpi :
      Instr sys t .storeSpi
        { sys with approxSpi := PacerSystem.nextEma t.spiEma t.winWrites t.winSnaps }
        { t with spiEma := PacerSystem.nextEma t.spiEma t.winWrites t.winSnaps }
        (.storeDelta t.spiEma)
  | storeDelta (prevEma : F) :
      Instr sys t (.storeDelta prevEma) { sys with deltaSpi := t.spiEma - prevEma }
        (afterResample { t with winWrites := 0, winSnaps := 0 }).1
        (afterResample { t with winWrites := 0, winSnaps := 0 }).2
  | advanceLoad (b : Bool) :
      Instr sys t (.advanceLoad b) sys t (.advanceCas b sys.globalEpoch)
  | advanceCas (b : Bool) (cur : Nat) :
      Instr sys t (.advanceCas b cur)
        { sys with globalEpoch := (compareExchange sys.globalEpoch cur (cur + 1)).1 }
        (if b then { t with
            failStreak := PacerSystem.streakAfter t.failStreak
              (compareExchange sys.globalEpoch cur (cur + 1)).2 } else t)
        .idle

/-- **Inversion of an instruction.** -/
theorem threadStep_cases {sys sys' : PacerSystem F} {t t' : ThreadLocalState F P}
    {p q : SysPc F} (h : threadStep sys t p = some (sys', t', q)) : Instr sys t p sys' t' q := by
  cases p with
  | unregistered | idle | panicked => cases h
  | scc elapsed p =>
      simp only [threadStep] at h
      cases hr : (sccStep sys.scc sys.globalEpoch p).2 with
      | some r =>
          rw [hr] at h
          cases h
          exact .scc elapsed p r hr
      | none =>
          rw [hr, afterScc] at h
          cases hret : p.returns with
          | some ts =>
              rw [hret] at h
              cases h
              exact .sccReturns elapsed ts p hr hret
          | none =>
              rw [hret] at h
              cases h
              exact .sccEnds elapsed p hr hret
  | latencyLoad elapsed ts => cases h; exact .latencyLoad elapsed ts
  | latencyStore elapsed ts prev => cases h; exact .latencyStore elapsed ts prev
  | announce ts =>
      simp only [threadStep, PacerSystem.announceSnapshot, AnnouncementTable.announce,
        AnnouncementTable.store] at h
      by_cases htid : t.tid < maxThreads
      · rw [if_pos htid] at h
        cases h
        exact .announce ts htid
      · rw [if_neg htid] at h
        cases h
        exact .panic _ (Or.inl ⟨ts, rfl⟩)
  | release =>
      simp only [threadStep, PacerSystem.releaseSnapshot, AnnouncementTable.release,
        AnnouncementTable.store] at h
      by_cases htid : t.tid < maxThreads
      · rw [if_pos htid] at h
        cases h
        exact .release htid
      · rw [if_neg htid] at h
        cases h
        exact .panic _ (Or.inr (Or.inl rfl))
  | prepare => cases h; exact .prepare
  | scanCount => cases h; exact .scanCount
  | scanSlot n i min =>
      simp only [threadStep, AnnouncementTable.load] at h
      by_cases hi : i < n
      · rw [if_pos hi] at h
        by_cases hmax : i < maxThreads
        · rw [if_pos hmax] at h
          cases h
          exact .scanSlot n i min hi
        · rw [if_neg hmax] at h
          cases h
          exact .panic _ (Or.inr (Or.inr ⟨n, i, min, rfl⟩))
      · rw [if_neg hi] at h
        cases h
        exact .scanEnd n i min hi
  | drain safeTs k =>
      simp only [threadStep] at h
      cases hf : nextFreed t safeTs k with
      | none => rw [hf] at h; cases h; exact .drainEnd safeTs k hf
      | some e => rw [hf] at h; cases h; exact .pop safeTs k e hf
  | storeSpi => cases h; exact .storeSpi
  | storeDelta prevEma => cases h; exact .storeDelta prevEma
  | advanceLoad b => cases h; exact .advanceLoad b
  | advanceCas b cur => cases h; exact .advanceCas b cur

/-- The held snapshots after a step from `p` to `q`. -/
def heldAfter (held : List Nat) : SysPc F → SysPc F → List Nat
  | .announce ts, .idle => ts :: held
  | .release, .idle => held.tail
  | _, _ => held

/-- The three instructions that write the announcement table, and what they write. -/
inductive TableWrite (tbl tbl' : AnnouncementTable) (tid : Nat) (p q : SysPc F) : Prop where
  | none (h : tbl' = tbl)
  | announce (ts : Nat) (hp : p = .announce ts) (hq : q = .idle)
      (h : tbl' = { tbl with slots := Function.update tbl.slots tid ts })
  | release (hp : p = .release) (hq : q = .idle)
      (h : tbl' = { tbl with slots := Function.update tbl.slots tid 0 })

omit [F64 F] in
theorem TableWrite.activeCount {tbl tbl' : AnnouncementTable} {tid : Nat} {p q : SysPc F}
    (h : TableWrite tbl tbl' tid p q) : tbl'.activeCount = tbl.activeCount := by
  cases h with
  | none h => rw [h]
  | announce ts _ _ h => rw [h]
  | release _ _ h => rw [h]

/-- **What an instruction leaves alone**: the thread stays registered and keeps its slot index,
and the table changes only in that slot. -/
theorem threadStep_frame {sys sys' : PacerSystem F} {t t' : ThreadLocalState F P}
    {p q : SysPc F} (h : threadStep sys t p = some (sys', t', q)) :
    t'.tid = t.tid ∧ q.registered = true
      ∧ TableWrite sys.announce sys'.announce t.tid p q := by
  cases threadStep_cases h with
  | announce ts htid => exact ⟨rfl, rfl, .announce ts rfl rfl rfl⟩
  | release htid => exact ⟨rfl, rfl, .release rfl rfl rfl⟩
  | drainEnd safeTs k hf =>
      refine ⟨afterDrain_tid t, ?_, .none rfl⟩
      rcases afterDrain_pc t with h | h | h | h <;> rw [h] <;> rfl
  | storeDelta prevEma =>
      refine ⟨afterResample_tid _, ?_, .none rfl⟩
      rcases afterResample_pc { t with winWrites := 0, winSnaps := 0 } with h | h | h <;>
        rw [h] <;> rfl
  | advanceCas b cur => cases b <;> exact ⟨rfl, rfl, .none rfl⟩
  | scc | sccReturns | sccEnds | latencyLoad | latencyStore | panic | prepare | scanCount
  | scanSlot | scanEnd | pop | storeSpi | advanceLoad => exact ⟨rfl, rfl, .none rfl⟩

end

/-! ## The system -/

namespace SysState

variable {F T P : Type} [F64 F] [DecidableEq T]

def init (F T P : Type) [F64 F] : SysState F T P :=
  { sys := PacerSystem.new, tls := fun _ => ThreadLocalState.new 0,
    pc := fun _ => .unregistered, held := fun _ => [], opened := [] }

/-- The window that the next step of a thread at `p` opens. -/
def opensAt (s : SysState F T P) : SysPc F → Option Window
  | .scc _ p => SccState.opens s.sys.scc p
  | _ => none

def step (s : SysState F T P) : SysAction T P → Option (SysState F T P)
  | .register t =>
      match s.pc t with
      | .unregistered =>
          let r := s.sys.registerThread
          some { s with
            sys := r.1
            tls := Function.update s.tls t
              (ThreadLocalState.new (r.2.getD s.sys.announce.activeCount))
            pc := Function.update s.pc t (if r.2.isSome then .idle else .panicked) }
      | _ => none
  | .call t c =>
      match s.pc t with
      | .idle =>
          some { s with
            tls := Function.update s.tls t (start (s.tls t) c).1
            pc := Function.update s.pc t (start (s.tls t) c).2 }
      | _ => none
  | .run t =>
      (threadStep s.sys (s.tls t) (s.pc t)).map fun r =>
        { sys := r.1
          tls := Function.update s.tls t r.2.1
          pc := Function.update s.pc t r.2.2
          held := Function.update s.held t (heldAfter (s.held t) (s.pc t) r.2.2)
          opened := (opensAt s (s.pc t)).toList ++ s.opened }

/-- **What a step can do**: a thread registers, starts a call, or performs an instruction. -/
theorem step_cases {s s' : SysState F T P} {a : SysAction T P} (h : step s a = some s') :
    (∃ t, a = .register t ∧ s.pc t = .unregistered
        ∧ s' = { s with
            sys := s.sys.registerThread.1
            tls := Function.update s.tls t
              (ThreadLocalState.new
                (s.sys.registerThread.2.getD s.sys.announce.activeCount))
            pc := Function.update s.pc t
              (if s.sys.registerThread.2.isSome then .idle else .panicked) })
      ∨ (∃ t c, a = .call t c ∧ s.pc t = .idle
        ∧ s' = { s with
            tls := Function.update s.tls t (start (s.tls t) c).1
            pc := Function.update s.pc t (start (s.tls t) c).2 })
      ∨ (∃ t sys tls q, a = .run t ∧ threadStep s.sys (s.tls t) (s.pc t) = some (sys, tls, q)
        ∧ s' = { sys := sys
                 tls := Function.update s.tls t tls
                 pc := Function.update s.pc t q
                 held := Function.update s.held t (heldAfter (s.held t) (s.pc t) q)
                 opened := (opensAt s (s.pc t)).toList ++ s.opened }) := by
  cases a with
  | register t =>
      simp only [step] at h
      split at h
      · rename_i hp
        exact Or.inl ⟨t, rfl, hp, (Option.some.inj h).symm⟩
      · cases h
  | call t c =>
      simp only [step] at h
      split at h
      · rename_i hp
        exact Or.inr (Or.inl ⟨t, c, rfl, hp, (Option.some.inj h).symm⟩)
      · cases h
  | run t =>
      obtain ⟨⟨sys, tls, q⟩, hr, rfl⟩ := Option.map_eq_some_iff.mp h
      exact Or.inr (Or.inr ⟨t, sys, tls, q, rfl, hr, rfl⟩)

/-- **What a step does to thread `u`**: nothing, or it is `u`'s own step. -/
theorem thread_step_cases {s s' : SysState F T P} {a : SysAction T P} (h : step s a = some s')
    (u : T) :
    (s'.pc u = s.pc u ∧ s'.tls u = s.tls u ∧ s'.held u = s.held u ∧ a ≠ .run u
        ∧ ∀ c, a ≠ .call u c)
      ∨ (a = .register u ∧ s.pc u = .unregistered ∧ (s'.pc u = .idle ∨ s'.pc u = .panicked)
        ∧ s'.held u = s.held u ∧ (s'.tls u).tid = s.sys.announce.activeCount)
      ∨ (∃ c, a = .call u c ∧ s.pc u = .idle ∧ s'.pc u = (start (s.tls u) c).2
        ∧ s'.tls u = (start (s.tls u) c).1 ∧ s'.held u = s.held u)
      ∨ (a = .run u ∧ threadStep s.sys (s.tls u) (s.pc u) = some (s'.sys, s'.tls u, s'.pc u)
        ∧ s'.held u = heldAfter (s.held u) (s.pc u) (s'.pc u)) := by
  rcases step_cases h with ⟨t, rfl, hp, rfl⟩ | ⟨t, c, rfl, hp, rfl⟩ | ⟨t, sys, tls, q, rfl, hr, rfl⟩
  · by_cases hu : u = t
    · subst hu
      refine Or.inr (Or.inl ⟨rfl, hp, ?_, rfl, ?_⟩)
      · simp only [Function.update_self]
        split
        · exact Or.inl rfl
        · exact Or.inr rfl
      · simp only [Function.update_self, PacerSystem.registerThread, AnnouncementTable.register]
        split <;> rfl
    · exact Or.inl ⟨Function.update_of_ne hu .., Function.update_of_ne hu .., rfl, by simp,
        by simp⟩
  · by_cases hu : u = t
    · subst hu
      exact Or.inr (Or.inr (Or.inl ⟨c, rfl, hp, Function.update_self .., Function.update_self ..,
        rfl⟩))
    · refine Or.inl ⟨Function.update_of_ne hu .., Function.update_of_ne hu .., rfl, by simp, ?_⟩
      intro c' hc
      exact hu (SysAction.call.inj hc).1.symm
  · by_cases hu : u = t
    · subst hu
      simp only [Function.update_self]
      exact Or.inr (Or.inr (Or.inr ⟨trivial, hr, trivial⟩))
    · refine Or.inl ⟨Function.update_of_ne hu .., Function.update_of_ne hu ..,
        Function.update_of_ne hu .., ?_, by simp⟩
      intro hc
      exact hu (SysAction.run.inj hc).symm

/-! ## The coordinator of the system -/

/-- The coordinator call of a thread. -/
def sccPc : SysPc F → Option (SccPc F)
  | .scc _ p => some p
  | _ => none

omit [F64 F] in
theorem sccPc_afterScc (elapsed : Nat) (p : SccPc F) (q : Option (SccPc F)) :
    sccPc (afterScc elapsed p q) = q := by
  cases q with
  | some q => rfl
  | none =>
      unfold afterScc
      cases p.returns <;> rfl

def toScc (s : SysState F T P) : SccState F T :=
  { scc := s.sys.scc, epoch := s.sys.globalEpoch, pc := fun t => sccPc (s.pc t),
    opened := s.opened }

omit [F64 F] in
theorem sccPc_update (pc : T → SysPc F) (t : T) (q : SysPc F) :
    (fun u => sccPc (Function.update pc t q u))
      = Function.update (fun u => sccPc (pc u)) t (sccPc q) := by
  funext u
  by_cases hu : u = t
  · subst hu; simp
  · simp [hu]

omit [F64 F] in
/-- A thread that is not in the coordinator and does not enter it is not seen there. -/
theorem sccPc_update_none {pc : T → SysPc F} {t : T} {q : SysPc F} (hp : sccPc (pc t) = none)
    (hq : sccPc q = none) :
    (fun u => sccPc (Function.update pc t q u)) = fun u => sccPc (pc u) := by
  rw [sccPc_update, hq, ← hp, Function.update_eq_self]

/-- A step outside the coordinator changes at most the epoch, by one, or `p99_ns`. -/
theorem threadStep_scc {sys sys' : PacerSystem F} {t t' : ThreadLocalState F P} {p q : SysPc F}
    (h : threadStep sys t p = some (sys', t', q)) (hp : sccPc p = none) :
    sccPc q = none
      ∧ ((sys'.scc = sys.scc ∧ ∃ k ≤ 1, sys'.globalEpoch = sys.globalEpoch + k)
        ∨ (sys'.globalEpoch = sys.globalEpoch
          ∧ ∃ v, sys'.scc = { sys.scc with p99Ns := v })) := by
  have hsame : sys.scc = sys.scc ∧ ∃ k ≤ 1, sys.globalEpoch = sys.globalEpoch + k :=
    ⟨rfl, 0, Nat.zero_le 1, rfl⟩
  cases threadStep_cases h with
  | scc | sccReturns | sccEnds => cases hp
  | latencyStore => exact ⟨rfl, Or.inr ⟨rfl, _, rfl⟩⟩
  | prepare => exact ⟨rfl, Or.inl ⟨rfl, 1, le_rfl, rfl⟩⟩
  | drainEnd safeTs k hf =>
      refine ⟨?_, Or.inl hsame⟩
      rcases afterDrain_pc t with h | h | h | h <;> rw [h] <;> rfl
  | storeDelta prevEma =>
      refine ⟨?_, Or.inl hsame⟩
      rcases afterResample_pc { t with winWrites := 0, winSnaps := 0 } with h | h | h <;>
        rw [h] <;> rfl
  | advanceCas b cur =>
      -- the compare-exchange adds one or finds another epoch
      refine ⟨rfl, Or.inl ⟨rfl, ?_⟩⟩
      simp only [compareExchange]
      split
      · rename_i heq
        exact ⟨1, le_rfl, by simp [heq]⟩
      · exact ⟨0, Nat.zero_le 1, rfl⟩
  | latencyLoad | announce | release | panic | scanCount | scanSlot | scanEnd | pop | storeSpi
  | advanceLoad => exact ⟨rfl, Or.inl hsame⟩

/-- A step of the system is a step of its coordinator, or nothing happens there. -/
theorem toScc_step {s s' : SysState F T P} {a : SysAction T P} (h : step s a = some s') :
    s'.toScc = s.toScc ∨ ∃ b, SccState.step s.toScc b = some s'.toScc := by
  rcases step_cases h with ⟨t, -, hp, rfl⟩ | ⟨t, c, -, hp, rfl⟩ | ⟨t, sys, tls, q, -, hr, rfl⟩
  · left
    simp only [toScc]
    rw [sccPc_update_none (by rw [hp]; rfl) (by split <;> rfl)]
    rfl
  · cases c with
    | takeSnapshot nowNs elapsed =>
        -- the only call that concerns the coordinator
        refine Or.inr ⟨.call t nowNs, ?_⟩
        have hidle : s.toScc.pc t = none := by simp only [toScc, hp, sccPc]
        simp only [SccState.step, hidle]
        simp only [toScc, sccPc_update]
        rfl
    | release | prepare | postWrite | tryAdvance =>
        left
        simp only [toScc]
        rw [sccPc_update_none (by rw [hp]; rfl) rfl]
  · cases hp : s.pc t with
    | scc elapsed p =>
        rw [hp] at hr
        cases hr
        refine Or.inr ⟨.run t, ?_⟩
        have hpc : s.toScc.pc t = some p := by simp only [toScc, hp, sccPc]
        simp only [SccState.step, hpc]
        simp only [toScc, sccPc_update, sccPc_afterScc]
        rfl
    | _ =>
        -- an instruction outside of the coordinator is at most an advance or a new latency
        have hnone : sccPc (s.pc t) = none := by rw [hp]; rfl
        obtain ⟨hq, ⟨hscc, k, -, hk⟩ | ⟨hep, v, hv⟩⟩ := threadStep_scc hr hnone
        · refine Or.inr ⟨.advance k, ?_⟩
          simp only [SccState.step, toScc, hscc, hk, opensAt, Option.toList_none,
            List.nil_append]
          rw [sccPc_update_none hnone hq]
        · refine Or.inr ⟨.storeP99 v, ?_⟩
          simp only [SccState.step, toScc, hv, hep, opensAt, Option.toList_none,
            List.nil_append]
          rw [sccPc_update_none hnone hq]

/-- **A run of the system is a run of its coordinator.** -/
theorem toScc_run {s : SysState F T P} {tr : List (Trans (SysState F T P) (SysAction T P))}
    (h : Run step (init F T P) tr s) :
    ∃ tr', Run SccState.step (SccState.init F T 1) tr' s.toScc :=
  h.simulates (I := fun _ => True) toScc (fun _ _ _ _ _ => trivial)
    (fun _ _ _ _ hs => toScc_step hs) trivial

end SysState

end Pacer.Atomic
