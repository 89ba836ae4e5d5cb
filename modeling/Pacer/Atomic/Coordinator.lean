import Pacer.Atomic.SystemSteps
import Pacer.Atomic.SccClaim
import Pacer.Atomic.SccRate

set_option autoImplicit false

/-! # The coordinator inside the system

The machine of `Atomic/SccSteps.lean` lets the epoch advance and the latency change at any time.
In the system both are instructions of the threads: `write_op_prepare` and `try_advance_epoch`
advance the epoch, and each `take_snapshot` records the latency that it measured. Since a run of
the system is a run of its coordinator (`toScc_run`), what holds in the reachable states of the
coordinator holds in those of the system.
-/

namespace Pacer.Atomic

open Machine

namespace SysState

section

variable {F T P : Type} [F64 F] [DecidableEq T]

/-- **Only an opener writes the window**: a step of the system from an even generation leaves
the published fields as they are. -/
theorem fields_of_even {s s' : SysState F T P} {a : SysAction T P} {e₀ : Nat}
    (hinv : SccState.SccInv e₀ s.toScc) (heven : s.sys.scc.windowGen % 2 = 0)
    (hs : step s a = some s') :
    s'.sys.scc.currentTs = s.sys.scc.currentTs
      ∧ s'.sys.scc.windowOpenAt = s.sys.scc.windowOpenAt
      ∧ s'.sys.scc.adaptiveWNs = s.sys.scc.adaptiveWNs := by
  rcases toScc_step hs with hsame | ⟨b, hb⟩
  · have hscc : s'.sys.scc = s.sys.scc := congrArg SccState.scc hsame
    rw [hscc]
    exact ⟨rfl, rfl, rfl⟩
  · refine SccState.fields_of_not_claimed hb fun t _ hclaimed => ?_
    -- a claimed section keeps the generation odd
    obtain ⟨p, hp, hc⟩ := hclaimed
    have hodd : s.sys.scc.windowGen % 2 = 1 := (hinv.ok t p hp).odd hc
    omega

end

variable {T P : Type} [DecidableEq T]

/-- **The coordinator is sound inside the system**, in every state that registrations, snapshots,
releases, writes and epoch advances reach: the generation is odd exactly while one
`take_snapshot` is in its claimed section, the window does not change while it is even, every
counted call is a hit, a published window or in flight, the window's timestamp is not ahead of
the epoch, and its width is within the bounds. -/
theorem coordinator_sound [Fintype T] {s : SysState ℚ T P}
    {tr : List (Trans (SysState ℚ T P) (SysAction T P))} (h : Run step (init ℚ T P) tr s) :
    (s.sys.scc.windowGen % 2 = 1 ↔ ∃! t, s.toScc.Claimed t)
      ∧ (s.sys.scc.windowGen % 2 = 0 → ∀ a s', step s a = some s' →
          s'.sys.scc.currentTs = s.sys.scc.currentTs
            ∧ s'.sys.scc.windowOpenAt = s.sys.scc.windowOpenAt
            ∧ s'.sys.scc.adaptiveWNs = s.sys.scc.adaptiveWNs)
      ∧ s.sys.scc.totalCount
          = s.sys.scc.hitCount + s.sys.scc.windowGen / 2 + threadCount inFlight s.toScc.pc
      ∧ s.sys.scc.currentTs ≤ s.sys.globalEpoch
      ∧ sccMinWindowNs ≤ s.sys.scc.adaptiveWNs ∧ s.sys.scc.adaptiveWNs ≤ sccMaxWindowNs := by
  obtain ⟨tr', hrun⟩ := toScc_run h
  have hrate := SccState.rateInv_of_run hrun
  exact ⟨SccState.odd_iff_claimed hrate.inv, fun heven _ _ hs => fields_of_even hrate.inv heven hs,
    SccState.account_of_run hrun, hrate.inv.ts_le, hrate.width.width⟩

/-- One thread has opened a window and measured a latency, another opens the next one. -/
theorem coordinator_sound_second :
    ∃ s : SysState ℚ (Fin 2) Unit, s.sys.scc.windowGen = 3 ∧ s.sys.scc.p99Ns ≠ 0
      ∧ (∃! t, s.toScc.Claimed t)
      ∧ s.sys.scc.totalCount
          = s.sys.scc.hitCount + s.sys.scc.windowGen / 2 + threadCount inFlight s.toScc.pc
      ∧ s.sys.scc.currentTs ≤ s.sys.globalEpoch := by
  obtain ⟨tr, s, hrun, hp⟩ := exists_run_of_replay step (init ℚ (Fin 2) Unit)
    ([.register 0, .register 1, .call 0 (.takeSnapshot 0 900)] ++ List.replicate 17 (.run 0)
      ++ [.call 0 .prepare, .run 0, .call 1 (.takeSnapshot 5000000 80)]
      ++ List.replicate 9 (.run 1))
    (fun _ s => decide (s.sys.scc.windowGen = 3) && decide (s.sys.scc.p99Ns ≠ 0))
    (by decide +kernel)
  simp only [Bool.and_eq_true, decide_eq_true_eq] at hp
  obtain ⟨hodd, -, haccount, hts, -⟩ := coordinator_sound hrun
  exact ⟨s, hp.1, hp.2, hodd.mp (by rw [hp.1]), haccount, hts⟩

end SysState

end Pacer.Atomic
