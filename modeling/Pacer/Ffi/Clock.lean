import Pacer.Atomic.EpochCount
import Pacer.Ffi.Model
import Mathlib.Data.Finset.Card

set_option autoImplicit false

/-! # The two clocks of the FFI path

`AbtreeFFI::insert` and `remove` stamp the nodes they allocate from the counter in `AbtreeFFI`;
`take_snapshot` takes its timestamp from the epoch of `PacerSystem`. The counter advances with
every operation on the tree, the epoch at most once in an operation, by the `reclaim_discrete`
at its end. So the counter never falls behind the epoch (`ClockInv.global_le`).

The machine interleaves these operations on any number of threads: what concerns the system runs
through `Atomic.SysState.step`, and an operation on the tree adds its `fetch_add` with the
`abtree_set_epoch`, the allocations and retirements inside the C call, and its return.
-/

namespace Pacer.Ffi

open Machine Atomic

inductive ClockAction (T P : Type) where
  | register (t : T)
  | takeSnapshot (t : T) (nowNs elapsed : Nat)
  | release (t : T)
  /-- `insert` or `remove` up to its C call: `self.epoch.fetch_add(1)`, `abtree_set_epoch(ts)` -/
  | write (t : T)
  /-- `PacerAllocator::allocate` inside the C call -/
  | allocate (t : T)
  /-- `pacer_retire_cb` from inside the C call -/
  | retire (t : T) (birthTs : Nat) (ptr : P)
  /-- the C call returns -/
  | ret (t : T)
  /-- Thread `t` performs its next instruction outside of a C call. -/
  | run (t : T)
  deriving DecidableEq

structure ClockState (F T P : Type) where
  base : SysState F T P
  /-- `AbtreeFFI::epoch` -/
  epoch : Nat
  /-- The thread is in a C call, with this value passed to `abtree_set_epoch`. -/
  tree : T → Option Nat

namespace ClockState

variable {F T P : Type} [F64 F] [DecidableEq T]

def init (F T P : Type) [F64 F] : ClockState F T P :=
  { base := SysState.init F T P, epoch := 1, tree := fun _ => none }

/-- A step of the system by a thread that is not in a C call. -/
def onSystem (s : ClockState F T P) (t : T) (a : SysAction T P) : Option (ClockState F T P) :=
  if s.tree t = none then (SysState.step s.base a).map fun base => { s with base := base }
  else none

def step (s : ClockState F T P) : ClockAction T P → Option (ClockState F T P)
  | .register t => s.onSystem t (.register t)
  | .takeSnapshot t nowNs elapsed => s.onSystem t (.call t (.takeSnapshot nowNs elapsed))
  | .release t => s.onSystem t (.call t .release)
  | .run t => s.onSystem t (.run t)
  | .write t =>
      match s.base.pc t, s.tree t with
      | .idle, none =>
          some { s with
            base := { s.base with
              tls := Function.update s.base.tls t (countWrite (s.base.tls t)) }
            epoch := s.epoch + 1
            tree := Function.update s.tree t (some s.epoch) }
      | _, _ => none
  | .allocate t =>
      match s.tree t with
      | some _ => some s
      | none => none
  | .retire t birthTs ptr =>
      match s.tree t with
      | some _ =>
          some { s with
            base := { s.base with
              tls := Function.update s.base.tls t
                (pacerRetireCb (s.base.tls t) birthTs ptr) } }
      | none => none
  | .ret t =>
      -- `drain_discrete_tick` and what follows it begin with the scan
      match s.tree t with
      | some _ =>
          some { s with
            base := { s.base with pc := Function.update s.base.pc t .scanCount }
            tree := Function.update s.tree t none }
      | none => none

/-- The action of the system that an action is. -/
def sysAction : ClockAction T P → Option (T × SysAction T P)
  | .register t => some (t, .register t)
  | .takeSnapshot t nowNs elapsed => some (t, .call t (.takeSnapshot nowNs elapsed))
  | .release t => some (t, .call t .release)
  | .run t => some (t, .run t)
  | .write _ | .allocate _ | .retire _ _ _ | .ret _ => none

/-- **What a step can do**: it is a step of the system, the begin or the end of an operation on
the tree, or something inside of one. -/
inductive Stepped (s : ClockState F T P) : ClockAction T P → ClockState F T P → Prop
  | system (a : ClockAction T P) (t : T) (b : SysAction T P) (base : SysState F T P)
      (ha : sysAction a = some (t, b)) (hout : s.tree t = none)
      (hs : SysState.step s.base b = some base) : Stepped s a { s with base := base }
  | write (t : T) (hidle : s.base.pc t = .idle) (hout : s.tree t = none) :
      Stepped s (.write t) { s with
        base := { s.base with tls := Function.update s.base.tls t (countWrite (s.base.tls t)) }
        epoch := s.epoch + 1
        tree := Function.update s.tree t (some s.epoch) }
  | allocate (t : T) (d : Nat) (hin : s.tree t = some d) : Stepped s (.allocate t) s
  | retire (t : T) (birthTs d : Nat) (ptr : P) (hin : s.tree t = some d) :
      Stepped s (.retire t birthTs ptr) { s with
        base := { s.base with
          tls := Function.update s.base.tls t (pacerRetireCb (s.base.tls t) birthTs ptr) } }
  | ret (t : T) (d : Nat) (hin : s.tree t = some d) :
      Stepped s (.ret t) { s with
        base := { s.base with pc := Function.update s.base.pc t .scanCount }
        tree := Function.update s.tree t none }

theorem onSystem_eq_some {s s' : ClockState F T P} {t : T} {b : SysAction T P}
    (h : s.onSystem t b = some s') :
    s.tree t = none
      ∧ ∃ base, SysState.step s.base b = some base ∧ s' = { s with base := base } := by
  obtain ⟨hout, h⟩ := Option.ite_none_right_eq_some.mp h
  obtain ⟨base, hs, rfl⟩ := Option.map_eq_some_iff.mp h
  exact ⟨hout, base, hs, rfl⟩

theorem step_cases {s s' : ClockState F T P} {a : ClockAction T P} (h : step s a = some s') :
    Stepped s a s' := by
  cases a with
  | register t | takeSnapshot t | release t | run t =>
      obtain ⟨hout, base, hs, rfl⟩ := onSystem_eq_some h
      exact .system _ t _ base rfl hout hs
  | write t =>
      simp only [step] at h
      split at h
      · rename_i hidle hout
        cases h
        exact .write t hidle hout
      · cases h
  | allocate t =>
      simp only [step] at h
      split at h
      · rename_i d hin
        cases h
        exact .allocate t d hin
      · cases h
  | retire t birthTs ptr =>
      simp only [step] at h
      split at h
      · rename_i d hin
        cases h
        exact .retire t birthTs d ptr hin
      · cases h
  | ret t =>
      simp only [step] at h
      split at h
      · rename_i d hin
        cases h
        exact .ret t d hin
      · cases h

/-! ## The counter never falls behind the epoch -/

/-- The instructions after a C call: `drain_discrete_tick`, `resample_spi` and
`reclaim_discrete`. -/
def reclaiming : SysPc F → Bool
  | .scanCount | .scanSlot _ _ _ | .drain _ _ | .storeSpi | .storeDelta _ | .advanceLoad _
  | .advanceCas _ _ => true
  | _ => false

/-- No instruction leads into the tail of an operation or to a `write_op_prepare`. -/
theorem reclaiming_threadStep {sys sys' : PacerSystem F} {t t' : ThreadLocalState F P}
    {p q : SysPc F} (h : threadStep sys t p = some (sys', t', q)) :
    (reclaiming q = true → reclaiming p = true) ∧ q ≠ .prepare := by
  cases threadStep_cases h with
  | drainEnd safeTs k hf =>
      refine ⟨fun _ => rfl, ?_⟩
      rcases afterDrain_pc t with h | h | h | h <;> rw [h] <;> simp
  | storeDelta prevEma =>
      refine ⟨fun _ => rfl, ?_⟩
      rcases afterResample_pc { t with winWrites := 0, winSnaps := 0 } with h | h | h <;>
        rw [h] <;> simp
  | scc | sccReturns | sccEnds | latencyLoad | latencyStore | announce | release | panic
  | prepare | advanceCas => exact ⟨fun h => by simp [reclaiming] at h, by simp⟩
  | scanCount | scanSlot | scanEnd | pop | storeSpi | advanceLoad => exact ⟨fun _ => rfl, by simp⟩

/-- The thread has taken a stamp and may still advance the epoch in this operation. -/
def inOperation (s : ClockState F T P) (u : T) : Prop :=
  s.tree u ≠ none ∨ reclaiming (s.base.pc u) = true

/-- The counter is ahead of the epoch by at least the number of threads in an operation. -/
structure ClockInv (s : ClockState F T P) : Prop where
  pc : ∀ u, s.base.pc u ≠ .prepare
  ahead : ∃ S : Finset T, (∀ u, s.inOperation u → u ∈ S)
    ∧ s.base.sys.globalEpoch + S.card ≤ s.epoch

omit [F64 F] [DecidableEq T] in
theorem ClockInv.prepares_eq_false {s : ClockState F T P} (h : ClockInv s) (u : T) :
    SysState.prepares (s.base.pc u) = false := by
  cases hp : s.base.pc u with
  | prepare => exact absurd hp (h.pc u)
  | _ => rfl

omit [DecidableEq T] in
theorem clockInv_init : ClockInv (init F T P) where
  pc := fun u => by simp [init, SysState.init]
  ahead := ⟨∅, fun u hu => by simp [inOperation, init, SysState.init, reclaiming] at hu, le_rfl⟩

omit [F64 F] [DecidableEq T] in
/-- Steps that begin no operation and do not advance the epoch. -/
theorem ClockInv.frame {s s' : ClockState F T P} (h : ClockInv s)
    (hpc : ∀ u, s'.base.pc u ≠ .prepare) (hin : ∀ u, s'.inOperation u → s.inOperation u)
    (hG : s'.base.sys.globalEpoch = s.base.sys.globalEpoch) (hF : s'.epoch = s.epoch) :
    ClockInv s' := by
  obtain ⟨S, hS, hle⟩ := h.ahead
  exact ⟨hpc, S, fun u hu => hS u (hin u hu), by rw [hG, hF]; exact hle⟩

omit [F64 F] in
/-- An operation by a thread whose next program point is neither in the tail of an operation nor
a `write_op_prepare`. -/
theorem inOperation_update {s : ClockState F T P} {base : SysState F T P} {t : T} {q : SysPc F}
    (hpc : base.pc = Function.update s.base.pc t q)
    (hq : reclaiming q = true → reclaiming (s.base.pc t) = true) (u : T)
    (hu : ({ s with base := base } : ClockState F T P).inOperation u) : s.inOperation u := by
  rcases hu with hu | hu
  · exact Or.inl hu
  · right
    simp only [hpc] at hu
    by_cases hut : u = t
    · subst hut
      rw [Function.update_self] at hu
      exact hq hu
    · rwa [Function.update_of_ne hut] at hu

omit [F64 F] in
theorem ne_prepare_update {s : ClockState F T P} (h : ClockInv s) {base : SysState F T P} {t : T}
    {q : SysPc F} (hpc : base.pc = Function.update s.base.pc t q) (hq : q ≠ .prepare) (u : T) :
    base.pc u ≠ .prepare := by
  rw [hpc]
  by_cases hut : u = t
  · subst hut
    rwa [Function.update_self]
  · rw [Function.update_of_ne hut]
    exact h.pc u

omit [F64 F] [DecidableEq T] in
/-- The calls are `take_snapshot` and `release_snapshot_for`. -/
theorem start_of_sysAction {a : ClockAction T P} {t u : T} {c : SysCall P}
    (ha : sysAction a = some (t, .call u c)) (tl : ThreadLocalState F P) :
    (start tl c).2 ≠ .prepare ∧ reclaiming (start tl c).2 = false := by
  cases a <;> simp only [sysAction, Option.some.injEq, Prod.mk.injEq, reduceCtorEq, and_false,
    SysAction.call.injEq] at ha <;> obtain ⟨-, -, rfl⟩ := ha <;> simp [start, reclaiming]

omit [DecidableEq T] in
theorem eq_of_sysAction_run {a : ClockAction T P} {t u : T}
    (ha : sysAction a = some (t, .run u)) : u = t := by
  cases a <;> simp [sysAction] at ha
  exact ha.2.symm.trans ha.1

/-- The exchange that advances the epoch is the last instruction of its operation. -/
theorem idle_of_advances {sys sys' : PacerSystem F} {tl tl' : ThreadLocalState F P}
    {p q : SysPc F} (hr : threadStep sys tl p = some (sys', tl', q))
    (hadv : SysState.advances sys.globalEpoch p = true) : reclaiming p = true ∧ q = .idle := by
  cases p <;> simp only [SysState.advances, Bool.false_eq_true] at hadv
  cases hr
  exact ⟨rfl, rfl⟩

omit [F64 F] in
/-- The thread whose exchange advances the epoch leaves its operation, and the epoch catches up
by one. -/
theorem ClockInv.advance {s : ClockState F T P} (h : ClockInv s) {base : SysState F T P} {t : T}
    (hout : s.tree t = none) (hin : reclaiming (s.base.pc t) = true)
    (hpc : base.pc = Function.update s.base.pc t .idle)
    (hep : base.sys.globalEpoch = s.base.sys.globalEpoch + 1) :
    ClockInv { s with base := base } := by
  obtain ⟨S, hS, hle⟩ := h.ahead
  have hmem : t ∈ S := hS t (Or.inr hin)
  refine ⟨fun v => ne_prepare_update h hpc (by simp) v, S.erase t, fun v hv => ?_, ?_⟩
  · refine Finset.mem_erase.mpr ⟨?_, hS v (inOperation_update hpc (by simp [reclaiming]) v hv)⟩
    rintro rfl
    rcases hv with hv | hv
    · exact hv hout
    · simp [hpc, reclaiming] at hv
  · have hcard := Finset.card_erase_add_one hmem
    show base.sys.globalEpoch + (S.erase t).card ≤ s.epoch
    omega

/-- A step of the system keeps the invariant: only a compare-exchange advances the epoch, and it
is the last instruction of its operation. -/
theorem clockInv_system {s : ClockState F T P} (h : ClockInv s) {a : ClockAction T P} {t : T}
    {b : SysAction T P} {base : SysState F T P} (ha : sysAction a = some (t, b))
    (hout : s.tree t = none) (hs : SysState.step s.base b = some base) :
    ClockInv { s with base := base } := by
  rcases SysState.step_cases hs with ⟨u, rfl, hu, rfl⟩ | ⟨u, c, rfl, hu, rfl⟩
    | ⟨u, sys, tls, q, rfl, hr, rfl⟩
  · refine h.frame (fun v => ne_prepare_update h rfl ?_ v)
      (fun v hv => inOperation_update rfl ?_ v hv) rfl rfl
    · split <;> simp
    · split <;> simp [reclaiming]
  · obtain ⟨hprep, hback⟩ := start_of_sysAction ha (s.base.tls u)
    exact h.frame (fun v => ne_prepare_update h rfl hprep v)
      (fun v hv => inOperation_update rfl (by simp [hback]) v hv) rfl rfl
  · obtain rfl : u = t := eq_of_sysAction_run ha
    have hep := SysState.globalEpoch_threadStep hr
    have hno := h.prepares_eq_false u
    by_cases hadv : SysState.advances s.base.sys.globalEpoch (s.base.pc u) = true
    · obtain ⟨hin, rfl⟩ := idle_of_advances hr hadv
      simp only [hno, hadv, Bool.false_eq_true, if_false, if_true] at hep
      exact h.advance hout hin rfl hep
    · obtain ⟨hback, hprep⟩ := reclaiming_threadStep hr
      simp only [hno, hadv, Bool.false_eq_true, if_false, Nat.add_zero] at hep
      exact h.frame (fun v => ne_prepare_update h rfl hprep v)
        (fun v hv => inOperation_update rfl hback v hv) hep rfl

/-- **The step lemma.** -/
theorem clockInv_step {s s' : ClockState F T P} {a : ClockAction T P} (h : ClockInv s)
    (hs : step s a = some s') : ClockInv s' := by
  cases step_cases hs with
  | system a t b base ha hout hstep => exact clockInv_system h ha hout hstep
  | allocate t d hin => exact h
  | retire t birthTs d ptr hin => exact h.frame h.pc (fun _ hu => hu) rfl rfl
  | write t hidle hout =>
      -- the thread joins the operations with its own stamp
      obtain ⟨S, hS, hle⟩ := h.ahead
      refine ⟨h.pc, insert t S, fun u hu => ?_, ?_⟩
      · by_cases hut : u = t
        · exact hut ▸ Finset.mem_insert_self t S
        · refine Finset.mem_insert_of_mem (hS u ?_)
          simpa [inOperation, hut] using hu
      · have hcard := Finset.card_insert_le t S
        dsimp only
        omega
  | ret t d hin =>
      have hpc : ∀ u, Function.update s.base.pc t .scanCount u ≠ .prepare :=
        fun u => ne_prepare_update h (rfl : { s.base with
          pc := Function.update s.base.pc t .scanCount }.pc = _) (by simp) u
      refine h.frame hpc (fun u hu => ?_) rfl rfl
      · by_cases hut : u = t
        · exact Or.inl (by rw [hut, hin]; simp)
        · simpa [inOperation, hut] using hu

theorem clockInv_run {s : ClockState F T P}
    {tr : List (Trans (ClockState F T P) (ClockAction T P))} (h : Run step (init F T P) tr s) :
    ClockInv s :=
  h.invariant clockInv_init (fun _ _ _ hI hs => clockInv_step hI hs)

end ClockState

end Pacer.Ffi
