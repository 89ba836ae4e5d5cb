import Pacer.Atomic.SccInvariant

set_option autoImplicit false

/-! # Snapshot timestamps are monotone in real time

A call that has returned `ts` leaves `current_ts` at `ts` or more, and `current_ts` never falls.
A call that starts afterwards loads its timestamp from `current_ts`, or from the epoch, which is
never below it: `PcAbove ts ts` holds of the call from its start to its return.
-/

namespace Pacer.Atomic

open Machine

section

variable {F : Type} [F64 F]

/-- A timestamp the call has loaded from the published window is at least `b`, and one it has
loaded from the epoch is at least `c`. -/
def PcAbove (b c : Nat) : SccPc F → Prop
  | .count _ | .loadGen _ | .loadTs _ _ | .loadEpoch _ _ => True
  | .loadOpenAt _ _ ts | .loadW _ _ ts _ | .hit _ _ ts _ _ => b ≤ ts
  | .claim _ _ newTs | .rateTotal _ _ newTs | .rateHits _ _ newTs _ | .loadP99 _ _ newTs _
  | .storeW _ _ newTs _ | .storeTs _ _ newTs | .storeOpenAt _ _ newTs
  | .publish _ _ newTs => c ≤ newTs

theorem pcAbove_sccStep {b c : Nat} {scc : Scc} {epoch : Nat} {p q : SccPc F}
    (hts : b ≤ scc.currentTs) (hep : c ≤ epoch) (h : PcAbove b c p)
    (hq : (sccStep scc epoch p).2 = some q) : PcAbove b c q := by
  have hstep := sccStep_cases scc epoch p
  rw [hq] at hstep
  generalize (sccStep scc epoch p).1 = scc' at hstep
  cases hstep with
  | count | spin | loadGen | expired | claimFails => trivial
  | loadTs => exact hts
  | loadEpoch => exact hep
  | loadOpenAt | coalesce | claim | rateZero | rateTotal | rateHits | loadP99 | storeW | storeTs
  | storeOpenAt => exact h

omit [F64 F] in
/-- The timestamp a call returns is one it has loaded. -/
theorem PcAbove.le_returns {b ts : Nat} {p : SccPc F} (h : PcAbove b b p)
    (hret : p.returns = some ts) : b ≤ ts := by
  cases p <;> simp only [SccPc.returns, Option.some.injEq, reduceCtorEq] at hret
  case hit => exact hret ▸ h
  case publish => exact hret ▸ h

omit [F64 F] in
/-- A returned timestamp is an epoch value that is not newer than the published one. -/
theorem PcOk.returns_le {e₀ : Nat} {scc : Scc} {epoch ts : Nat} {p : SccPc F}
    (h : PcOk e₀ scc epoch p) (hret : p.returns = some ts) :
    e₀ ≤ ts ∧ ts ≤ scc.currentTs := by
  cases p <;> simp only [SccPc.returns, Option.some.injEq, reduceCtorEq] at hret
  case hit => exact hret ▸ ⟨h.2.1, h.1⟩
  case publish => exact hret ▸ ⟨h.2.2.1, h.2.2.2.2.ge⟩

end

namespace SccState

variable {F T : Type} [F64 F] [DecidableEq T]

/-- In the transition `x` thread `t` starts a call. -/
def Starts (x : Trans (SccState F T) (SccAction T)) (t : T) : Prop :=
  ∃ nowNs, x.act = .call t nowNs

/-- In the transition `x` a call of thread `t` returns `ts`. -/
def Returns (x : Trans (SccState F T) (SccAction T)) (t : T) (ts : Nat) : Prop :=
  x.act = .run t ∧ ∃ p, x.pre.pc t = some p ∧ p.returns = some ts

theorem starts_post {x : Trans (SccState F T) (SccAction T)} {t : T}
    (hs : step x.pre x.act = some x.post) (h : Starts x t) :
    ∃ nowNs, x.post.pc t = some (.count nowNs) := by
  obtain ⟨nowNs, hact⟩ := h
  rw [hact] at hs
  simp only [step] at hs
  split at hs
  · rw [← Option.some.inj hs]
    exact ⟨nowNs, Function.update_self ..⟩
  · cases hs

theorem currentTs_mono {e₀ : Nat} {s s' : SccState F T} {a : SccAction T} (h : SccInv e₀ s)
    (hs : step s a = some s') : s.scc.currentTs ≤ s'.scc.currentTs := by
  rcases step_cases hs with ⟨t, nowNs, -, -, rfl⟩ | ⟨t, p, -, hp, rfl⟩ | ⟨k, v, rfl, -⟩
  · exact le_rfl
  · exact (sccStep_effect (h.ok t p hp)).mono.1
  · exact le_rfl

/-- The published timestamp is at least `b`. -/
structure TsAbove (e₀ b : Nat) (s : SccState F T) : Prop where
  inv : SccInv e₀ s
  ts : b ≤ s.scc.currentTs

theorem tsAbove_step {e₀ b : Nat} {s s' : SccState F T} {a : SccAction T}
    (h : TsAbove e₀ b s) (hs : step s a = some s') : TsAbove e₀ b s' :=
  ⟨sccInv_step h.inv hs, le_trans h.ts (currentTs_mono h.inv hs)⟩

/-- A call of `t` that is above the bounds stays above them, and so do the later calls of
`t`. -/
theorem pcAbove_step {b c : Nat} {s s' : SccState F T} {a : SccAction T} {t : T}
    (hts : b ≤ s.scc.currentTs) (hep : c ≤ s.epoch)
    (habove : ∀ p, s.pc t = some p → PcAbove b c p)
    (hs : step s a = some s') : ∀ p, s'.pc t = some p → PcAbove b c p := by
  intro q hq
  rcases step_cases hs with ⟨u, nowNs, -, -, rfl⟩ | ⟨u, p, -, hp, rfl⟩ | ⟨k, v, rfl, -⟩
  · rcases pc_update_cases hq with ⟨-, hq'⟩ | ⟨-, hq'⟩
    · cases hq'; trivial
    · exact habove q hq'
  · rcases pc_update_cases hq with ⟨rfl, hq'⟩ | ⟨-, hq'⟩
    · exact pcAbove_sccStep hts hep (habove p hp) hq'
    · exact habove q hq'
  · exact habove q hq

/-- After a return of `ts` the published timestamp is at least `ts`. -/
theorem tsAbove_of_returns {e₀ ts : Nat} {x : Trans (SccState F T) (SccAction T)} {t : T}
    (h : SccInv e₀ x.pre) (hs : step x.pre x.act = some x.post) (hret : Returns x t ts) :
    TsAbove e₀ ts x.post := by
  obtain ⟨-, p, hp, hts⟩ := hret
  exact ⟨sccInv_step h hs, le_trans ((h.ok t p hp).returns_le hts).2 (currentTs_mono h hs)⟩

/-- **Timestamps are monotone in real time**: along every run the published timestamp never
falls, and a call that starts after another call returned `ts₁` returns at least `ts₁`. -/
theorem snapshots_monotone {epoch : Nat} {s : SccState F T}
    {tr : List (Trans (SccState F T) (SccAction T))} (h : Run step (init F T epoch) tr s) :
    (visited (init F T epoch) tr).Pairwise (fun r r' => r.scc.currentTs ≤ r'.scc.currentTs)
      ∧ ∀ tr₁ x₁ tr₂ c tr₃ x₂ tr₄ t₁ ts₁ t₂ ts₂,
          tr = tr₁ ++ x₁ :: (tr₂ ++ c :: (tr₃ ++ x₂ :: tr₄)) →
          Returns x₁ t₁ ts₁ → Starts c t₂ → Returns x₂ t₂ ts₂ → ts₁ ≤ ts₂ := by
  refine ⟨(h.pairwise_visited (I := SccInv epoch) (fun r => r.scc.currentTs)
    (sccInv_init le_rfl)
    (fun _ _ _ hI hs => ⟨sccInv_step hI hs, currentTs_mono hI hs⟩)).1, ?_⟩
  rintro tr₁ x₁ tr₂ c tr₃ x₂ tr₄ t₁ ts₁ t₂ ts₂ rfl hret₁ hstart hret₂
  obtain ⟨h₁, hs₁, hrest⟩ := h.split
  obtain ⟨h₂, hs₂, hrest⟩ := hrest.split
  obtain ⟨h₃, -, -⟩ := hrest.split
  have habove := h₂.invariant (tsAbove_of_returns (sccInv_of_run h₁) hs₁ hret₁)
    (fun _ _ _ hI hs => tsAbove_step hI hs)
  -- the call starts without a timestamp
  have hnew : ∀ p, c.post.pc t₂ = some p → PcAbove ts₁ ts₁ p := by
    obtain ⟨nowNs, hcount⟩ := starts_post hs₂ hstart
    intro p hp
    rw [hcount] at hp
    cases hp
    trivial
  have hlast := h₃.invariant (I := fun s => TsAbove epoch ts₁ s
      ∧ ∀ p, s.pc t₂ = some p → PcAbove ts₁ ts₁ p) ⟨tsAbove_step habove hs₂, hnew⟩
    (fun _ _ _ hI hs => ⟨tsAbove_step hI.1 hs,
      pcAbove_step hI.1.ts (le_trans hI.1.ts hI.1.inv.ts_le) hI.2 hs⟩)
  obtain ⟨-, p, hp, hts⟩ := hret₂
  exact (hlast.2 p hp).le_returns hts

/-- Two calls one after the other, each of which opens a window. -/
def twoWindows {T : Type} (t u : T) : List (SccAction T) :=
  .call t 0 :: List.replicate 14 (.run t) ++ .advance 1 :: .call u 10000000
    :: List.replicate 14 (.run u)

theorem snapshots_monotone_two :
    ∃ tr s, Run step (init ℚ (Fin 2) 1) tr s ∧ s.scc.currentTs = 2
      ∧ (visited (init ℚ (Fin 2) 1) tr).Pairwise
          (fun r r' => r.scc.currentTs ≤ r'.scc.currentTs) := by
  obtain ⟨tr, s, hr, hs⟩ := exists_run_of_replay step (init ℚ (Fin 2) 1) (twoWindows 0 1)
    (fun _ s => s.scc.currentTs == 2) (by decide +kernel)
  exact ⟨tr, s, hr, by simpa using hs, (snapshots_monotone hr).1⟩

end SccState

end Pacer.Atomic
