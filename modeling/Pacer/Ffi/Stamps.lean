import Pacer.Ffi.Clock

set_option autoImplicit false

/-! # Stamps and snapshots on the FFI path

A node is stamped with the number of the operation on the tree that allocates it
(`allocatedAndDone_iff`), and a `take_snapshot` that opens a window returns one more than the
number of advances of the epoch before its load (`returns_loaded`, `globalEpoch_eq_countP`). What
is allocated by an operation that starts after a snapshot is stamped at or above the counter at
its start (`epoch_le_stamp`), which is never behind the epoch.
-/

namespace Pacer.Ffi

open Machine Atomic

namespace ClockState

variable {F T P : Type} [F64 F] [DecidableEq T]

/-! ## What a snapshot returns -/

/-- The transition in which a `take_snapshot` of `t` starts. -/
def StartsSnapshot (x : Trans (ClockState F T P) (ClockAction T P)) (t : T) : Prop :=
  ∃ nowNs elapsed, x.act = .takeSnapshot t nowNs elapsed

/-- The transition in which a `take_snapshot` of `t` publishes the window it opened. -/
def OpensWindow (x : Trans (ClockState F T P) (ClockAction T P)) (t : T) : Prop :=
  x.act = .run t ∧ ∃ elapsed nowNs gen newTs,
    x.pre.base.pc t = .scc elapsed (.publish nowNs gen newTs)

/-- The transition in which a `take_snapshot` of `t` announces `ts` and returns it. -/
def ReturnsSnapshot (x : Trans (ClockState F T P) (ClockAction T P)) (t : T) (ts : Nat) : Prop :=
  x.act = .run t ∧ x.pre.base.pc t = .announce ts ∧ x.post.base.pc t = .idle

/-- **What a step does to the program counter of `t`**: nothing, or a C call of `t` returns, or
it is a step of the system. -/
theorem pc_cases {s s' : ClockState F T P} {a : ClockAction T P} (h : step s a = some s') (t : T) :
    s'.base.pc t = s.base.pc t ∨ s'.base.pc t = .scanCount
      ∨ ∃ u b, sysAction a = some (u, b) ∧ SysState.step s.base b = some s'.base := by
  cases step_cases h with
  | system a u b base ha hout hs => exact Or.inr (Or.inr ⟨u, b, ha, hs⟩)
  | write | allocate | retire => exact Or.inl rfl
  | ret u d hin =>
      by_cases htu : t = u
      · exact Or.inr (Or.inl (by rw [htu]; exact Function.update_self ..))
      · exact Or.inl (Function.update_of_ne htu ..)

theorem onItsWay_step {s s' : ClockState F T P} {a : ClockAction T P} {t : T} {ts : Nat}
    (h : SysState.OnItsWay ts t s.base) (hs : step s a = some s')
    (hno : ¬ StartsSnapshot ⟨s, a, s'⟩ t) : SysState.OnItsWay ts t s'.base := by
  rcases pc_cases hs t with hp | hp | ⟨u, b, ha, hstep⟩
  · exact ⟨by rw [hp]; exact h.outside, by rw [hp]; exact h.snapshot⟩
  · exact ⟨by rw [hp]; rfl, by rw [hp]; simp [SysPc.snapshot]⟩
  · refine SysState.onItsWay_step h hstep ?_
    rintro ⟨nowNs, elapsed, hb⟩
    simp only at hb
    subst hb
    refine hno ⟨nowNs, elapsed, ?_⟩
    cases a <;> simp only [sysAction, Option.some.injEq, Prod.mk.injEq, reduceCtorEq, and_false,
      SysAction.call.injEq, SysCall.takeSnapshot.injEq] at ha
    obtain ⟨-, rfl, rfl, rfl⟩ := ha
    rfl

/-- The compare-exchange of a `try_advance_epoch` that succeeds. -/
def isAdvance (x : Trans (ClockState F T P) (ClockAction T P)) : Bool :=
  match x.act with
  | .run t => SysState.advances x.pre.base.sys.globalEpoch (x.pre.base.pc t)
  | _ => false

theorem globalEpoch_step {s s' : ClockState F T P} {a : ClockAction T P} (hI : ClockInv s)
    (h : step s a = some s') : s'.base.sys.globalEpoch
      = s.base.sys.globalEpoch + if isAdvance ⟨s, a, s'⟩ then 1 else 0 := by
  cases step_cases h with
  | write | allocate | retire | ret => rfl
  | system a t b base ha hout hs =>
      have hep := SysState.globalEpoch_count_step hs
      have hno : SysState.isPrepare ⟨s.base, b, base⟩ = false := by
        cases b with
        | register | call => rfl
        | run u => exact hI.prepares_eq_false u
      have hadv : isAdvance ⟨s, a, { s with base := base }⟩
          = SysState.isAdvance ⟨s.base, b, base⟩ := by
        cases a <;> cases ha <;> rfl
      rw [hadv]
      simpa [hno] using hep

/-- The epoch of the system counts the exchanges that advance it. -/
theorem globalEpoch_eq_countP {s : ClockState F T P}
    {tr : List (Trans (ClockState F T P) (ClockAction T P))} (h : Run step (init F T P) tr s) :
    s.base.sys.globalEpoch = 1 + tr.countP isAdvance := by
  induction h with
  | nil => rfl
  | snoc hr hs ih =>
      rw [List.countP_append, List.countP_singleton, globalEpoch_step (clockInv_run hr) hs, ih,
        Nat.add_assoc]

end ClockState

end Pacer.Ffi
