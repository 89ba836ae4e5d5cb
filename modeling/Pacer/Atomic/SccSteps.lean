import Pacer.Core.Scc
import Pacer.Lib.Run
import Mathlib.Logic.Function.Basic

set_option autoImplicit false

/-! # The atomic steps of `Scc::take_snapshot`

A call is a program counter with the local variables in scope. Each step performs one atomic
instruction on the shared fields, together with the local computation up to the next one. Any
number of threads (`T`) call `take_snapshot` with any clock readings, while other operations
advance the epoch and record latencies. Memory is sequentially consistent.

`opened` lists the windows opened so far, latest first: the generation that the winner of the
compare-exchange claimed, with the timestamp and the open time that it goes on to publish.
-/

namespace Pacer.Atomic

open Machine

/-- The next atomic instruction of a call. -/
inductive SccPc (F : Type) where
  /-- `total_count.fetch_add(1)` -/
  | count (nowNs : Nat)
  /-- top of the loop: `window_gen.load()` -/
  | loadGen (nowNs : Nat)
  | loadTs (nowNs gen : Nat)
  | loadOpenAt (nowNs gen ts : Nat)
  | loadW (nowNs gen ts openedAt : Nat)
  /-- `hit_count.fetch_add(1)`, then return `ts` -/
  | hit (nowNs gen ts openedAt w : Nat)
  | loadEpoch (nowNs gen : Nat)
  /-- `window_gen.compare_exchange(gen, gen + 1)` -/
  | claim (nowNs gen newTs : Nat)
  /-- `hit_rate`: `total_count.load()` -/
  | rateTotal (nowNs gen newTs : Nat)
  /-- `hit_rate`: `hit_count.load()` -/
  | rateHits (nowNs gen newTs total : Nat)
  | loadP99 (nowNs gen newTs : Nat) (hitRate : F)
  | storeW (nowNs gen newTs newW : Nat)
  | storeTs (nowNs gen newTs : Nat)
  | storeOpenAt (nowNs gen newTs : Nat)
  /-- `window_gen.store(gen + 2)`, then return `newTs` -/
  | publish (nowNs gen newTs : Nat)
  deriving DecidableEq

section

variable {F : Type} [F64 F]

/-- One atomic step: the shared fields and the next program point, `none` after the return. -/
def sccStep (scc : Scc) (epoch : Nat) : SccPc F → Scc × Option (SccPc F)
  | .count nowNs => ({ scc with totalCount := scc.totalCount + 1 }, some (.loadGen nowNs))
  | .loadGen nowNs =>
      if scc.windowGen % 2 = 1 then (scc, some (.loadGen nowNs))
      else (scc, some (.loadTs nowNs scc.windowGen))
  | .loadTs nowNs gen => (scc, some (.loadOpenAt nowNs gen scc.currentTs))
  | .loadOpenAt nowNs gen ts => (scc, some (.loadW nowNs gen ts scc.windowOpenAt))
  | .loadW nowNs gen ts openedAt =>
      if Scc.coalesces nowNs gen openedAt scc.adaptiveWNs then
        (scc, some (.hit nowNs gen ts openedAt scc.adaptiveWNs))
      else (scc, some (.loadEpoch nowNs gen))
  | .hit _ _ _ _ _ => ({ scc with hitCount := scc.hitCount + 1 }, none)
  | .loadEpoch nowNs gen => (scc, some (.claim nowNs gen epoch))
  | .claim nowNs gen newTs =>
      if scc.windowGen = gen then
        ({ scc with windowGen := gen + 1 }, some (.rateTotal nowNs gen newTs))
      else (scc, some (.loadGen nowNs))
  | .rateTotal nowNs gen newTs =>
      if scc.totalCount = 0 then (scc, some (.loadP99 nowNs gen newTs (Scc.rateOf F 0 0)))
      else (scc, some (.rateHits nowNs gen newTs scc.totalCount))
  | .rateHits nowNs gen newTs total =>
      (scc, some (.loadP99 nowNs gen newTs (Scc.rateOf F scc.hitCount total)))
  | .loadP99 nowNs gen newTs hitRate =>
      (scc, some (.storeW nowNs gen newTs (Scc.computeW F hitRate scc.p99Ns)))
  | .storeW nowNs gen newTs newW =>
      ({ scc with adaptiveWNs := newW }, some (.storeTs nowNs gen newTs))
  | .storeTs nowNs gen newTs =>
      ({ scc with currentTs := newTs }, some (.storeOpenAt nowNs gen newTs))
  | .storeOpenAt nowNs gen newTs =>
      ({ scc with windowOpenAt := nowNs }, some (.publish nowNs gen newTs))
  | .publish _ gen _ => ({ scc with windowGen := gen + 2 }, none)

/-- What the next instruction of a call does, one constructor for each outcome. -/
inductive SccInstr (scc : Scc) (epoch : Nat) : SccPc F → Scc → Option (SccPc F) → Prop
  | count (nowNs : Nat) :
      SccInstr scc epoch (.count nowNs) { scc with totalCount := scc.totalCount + 1 }
        (some (.loadGen nowNs))
  | spin (nowNs : Nat) (hodd : scc.windowGen % 2 = 1) :
      SccInstr scc epoch (.loadGen nowNs) scc (some (.loadGen nowNs))
  | loadGen (nowNs : Nat) (heven : scc.windowGen % 2 = 0) :
      SccInstr scc epoch (.loadGen nowNs) scc (some (.loadTs nowNs scc.windowGen))
  | loadTs (nowNs gen : Nat) :
      SccInstr scc epoch (.loadTs nowNs gen) scc (some (.loadOpenAt nowNs gen scc.currentTs))
  | loadOpenAt (nowNs gen ts : Nat) :
      SccInstr scc epoch (.loadOpenAt nowNs gen ts) scc
        (some (.loadW nowNs gen ts scc.windowOpenAt))
  | coalesce (nowNs gen ts openedAt : Nat)
      (hc : Scc.coalesces nowNs gen openedAt scc.adaptiveWNs) :
      SccInstr scc epoch (.loadW nowNs gen ts openedAt) scc
        (some (.hit nowNs gen ts openedAt scc.adaptiveWNs))
  | expired (nowNs gen ts openedAt : Nat)
      (hc : ¬ Scc.coalesces nowNs gen openedAt scc.adaptiveWNs) :
      SccInstr scc epoch (.loadW nowNs gen ts openedAt) scc (some (.loadEpoch nowNs gen))
  | hit (nowNs gen ts openedAt w : Nat) :
      SccInstr scc epoch (.hit nowNs gen ts openedAt w) { scc with hitCount := scc.hitCount + 1 }
        none
  | loadEpoch (nowNs gen : Nat) :
      SccInstr scc epoch (.loadEpoch nowNs gen) scc (some (.claim nowNs gen epoch))
  | claim (nowNs gen newTs : Nat) (hgen : scc.windowGen = gen) :
      SccInstr scc epoch (.claim nowNs gen newTs) { scc with windowGen := gen + 1 }
        (some (.rateTotal nowNs gen newTs))
  | claimFails (nowNs gen newTs : Nat) (hgen : ¬ scc.windowGen = gen) :
      SccInstr scc epoch (.claim nowNs gen newTs) scc (some (.loadGen nowNs))
  | rateZero (nowNs gen newTs : Nat) (htotal : scc.totalCount = 0) :
      SccInstr scc epoch (.rateTotal nowNs gen newTs) scc
        (some (.loadP99 nowNs gen newTs (Scc.rateOf F 0 0)))
  | rateTotal (nowNs gen newTs : Nat) (htotal : ¬ scc.totalCount = 0) :
      SccInstr scc epoch (.rateTotal nowNs gen newTs) scc
        (some (.rateHits nowNs gen newTs scc.totalCount))
  | rateHits (nowNs gen newTs total : Nat) :
      SccInstr scc epoch (.rateHits nowNs gen newTs total) scc
        (some (.loadP99 nowNs gen newTs (Scc.rateOf F scc.hitCount total)))
  | loadP99 (nowNs gen newTs : Nat) (hitRate : F) :
      SccInstr scc epoch (.loadP99 nowNs gen newTs hitRate) scc
        (some (.storeW nowNs gen newTs (Scc.computeW F hitRate scc.p99Ns)))
  | storeW (nowNs gen newTs newW : Nat) :
      SccInstr scc epoch (.storeW nowNs gen newTs newW) { scc with adaptiveWNs := newW }
        (some (.storeTs nowNs gen newTs))
  | storeTs (nowNs gen newTs : Nat) :
      SccInstr scc epoch (.storeTs nowNs gen newTs) { scc with currentTs := newTs }
        (some (.storeOpenAt nowNs gen newTs))
  | storeOpenAt (nowNs gen newTs : Nat) :
      SccInstr scc epoch (.storeOpenAt nowNs gen newTs) { scc with windowOpenAt := nowNs }
        (some (.publish nowNs gen newTs))
  | publish (nowNs gen newTs : Nat) :
      SccInstr scc epoch (.publish nowNs gen newTs) { scc with windowGen := gen + 2 } none

/-- **Inversion of an instruction of a call.** -/
theorem sccStep_cases (scc : Scc) (epoch : Nat) (p : SccPc F) :
    SccInstr scc epoch p (sccStep scc epoch p).1 (sccStep scc epoch p).2 := by
  cases p with
  | loadGen nowNs =>
      simp only [sccStep]
      split
      · rename_i hodd
        exact .spin nowNs hodd
      · rename_i heven
        exact .loadGen nowNs (by omega)
  | loadW nowNs gen ts openedAt =>
      simp only [sccStep]
      split
      · rename_i hc
        exact .coalesce nowNs gen ts openedAt hc
      · rename_i hc
        exact .expired nowNs gen ts openedAt hc
  | claim nowNs gen newTs =>
      simp only [sccStep]
      split
      · rename_i hgen
        exact .claim nowNs gen newTs hgen
      · rename_i hgen
        exact .claimFails nowNs gen newTs hgen
  | rateTotal nowNs gen newTs =>
      simp only [sccStep]
      split
      · rename_i htotal
        exact .rateZero nowNs gen newTs htotal
      · rename_i htotal
        exact .rateTotal nowNs gen newTs htotal
  | count nowNs => exact .count nowNs
  | loadTs nowNs gen => exact .loadTs nowNs gen
  | loadOpenAt nowNs gen ts => exact .loadOpenAt nowNs gen ts
  | hit nowNs gen ts openedAt w => exact .hit nowNs gen ts openedAt w
  | loadEpoch nowNs gen => exact .loadEpoch nowNs gen
  | rateHits nowNs gen newTs total => exact .rateHits nowNs gen newTs total
  | loadP99 nowNs gen newTs hitRate => exact .loadP99 nowNs gen newTs hitRate
  | storeW nowNs gen newTs newW => exact .storeW nowNs gen newTs newW
  | storeTs nowNs gen newTs => exact .storeTs nowNs gen newTs
  | storeOpenAt nowNs gen newTs => exact .storeOpenAt nowNs gen newTs
  | publish nowNs gen newTs => exact .publish nowNs gen newTs

namespace SccPc

/-- The timestamp the call returns when its next step is its last. -/
def returns : SccPc F → Option Nat
  | .hit _ _ ts _ _ => some ts
  | .publish _ _ newTs => some newTs
  | _ => none

/-- The call is between its successful compare-exchange and its publishing store. -/
def claimed : SccPc F → Bool
  | .rateTotal _ _ _ | .rateHits _ _ _ _ | .loadP99 _ _ _ _ | .storeW _ _ _ _
  | .storeTs _ _ _ | .storeOpenAt _ _ _ | .publish _ _ _ => true
  | _ => false

/-- The call has counted itself. -/
def counted : SccPc F → Bool
  | .count _ => false
  | _ => true

end SccPc

end

/-- A window, as its opener chose it: the generation it claimed, the timestamp and the open
time. -/
structure Window where
  gen : Nat
  ts : Nat
  openAt : Nat
  deriving DecidableEq

structure SccState (F T : Type) where
  scc : Scc
  epoch : Nat
  pc : T → Option (SccPc F)
  opened : List Window

inductive SccAction (T : Type) where
  /-- Thread `t` calls `take_snapshot(now_ns, ..)`. -/
  | call (t : T) (nowNs : Nat)
  /-- Thread `t` performs its next atomic instruction. -/
  | run (t : T)
  /-- Some operation adds `k` to `global_epoch`. -/
  | advance (k : Nat)
  /-- `record_latency_ns` stores a new `p99_ns`. -/
  | storeP99 (p99Ns : Nat)
  deriving DecidableEq

namespace SccState

variable {F T : Type} [F64 F] [DecidableEq T]

/-- The window that the step of `p` opens. -/
def opens (scc : Scc) : SccPc F → Option Window
  | .claim nowNs gen newTs => if scc.windowGen = gen then some ⟨gen, newTs, nowNs⟩ else none
  | _ => none

def init (F T : Type) (epoch : Nat) : SccState F T :=
  { scc := Scc.new, epoch := epoch, pc := fun _ => none, opened := [] }

def step (s : SccState F T) : SccAction T → Option (SccState F T)
  | .call t nowNs =>
      match s.pc t with
      | none => some { s with pc := Function.update s.pc t (some (.count nowNs)) }
      | some _ => none
  | .run t =>
      match s.pc t with
      | none => none
      | some p =>
          some { s with
            scc := (sccStep s.scc s.epoch p).1
            pc := Function.update s.pc t (sccStep s.scc s.epoch p).2
            opened := (opens s.scc p).toList ++ s.opened }
  | .advance k => some { s with epoch := s.epoch + k }
  | .storeP99 p99Ns => some { s with scc := { s.scc with p99Ns := p99Ns } }

/-- **What a step can do**: a call starts, a call performs an instruction, or only the epoch
and `p99_ns` change. -/
theorem step_cases {s s' : SccState F T} {a : SccAction T} (h : step s a = some s') :
    (∃ t nowNs, a = .call t nowNs ∧ s.pc t = none
        ∧ s' = { s with pc := Function.update s.pc t (some (.count nowNs)) })
      ∨ (∃ t p, a = .run t ∧ s.pc t = some p
        ∧ s' = { s with
            scc := (sccStep s.scc s.epoch p).1
            pc := Function.update s.pc t (sccStep s.scc s.epoch p).2
            opened := (opens s.scc p).toList ++ s.opened })
      ∨ (∃ k p99Ns, s' = { s with epoch := s.epoch + k, scc := { s.scc with p99Ns := p99Ns } }
        ∧ ((∃ k, a = .advance k) ∨ ∃ v, a = .storeP99 v)) := by
  cases a with
  | call t nowNs =>
      simp only [step] at h
      split at h
      · rename_i hp
        exact Or.inl ⟨t, nowNs, rfl, hp, (Option.some.inj h).symm⟩
      · cases h
  | run t =>
      simp only [step] at h
      split at h
      · cases h
      · rename_i p hp
        exact Or.inr (Or.inl ⟨t, p, rfl, hp, (Option.some.inj h).symm⟩)
  | advance k =>
      exact Or.inr (Or.inr ⟨k, s.scc.p99Ns, (Option.some.inj h).symm, Or.inl ⟨k, rfl⟩⟩)
  | storeP99 v =>
      exact Or.inr (Or.inr ⟨0, v, (Option.some.inj h).symm, Or.inr ⟨v, rfl⟩⟩)

omit [F64 F] in
/-- The program counters after a step of `t`: its own is the new one, the others keep
theirs. -/
theorem pc_update_cases {pc : T → Option (SccPc F)} {t u : T} {o : Option (SccPc F)}
    {q : SccPc F} (h : Function.update pc t o u = some q) :
    (u = t ∧ o = some q) ∨ (u ≠ t ∧ pc u = some q) := by
  by_cases hu : u = t
  · subst hu
    rw [Function.update_self] at h
    exact Or.inl ⟨rfl, h⟩
  · rw [Function.update_of_ne hu] at h
    exact Or.inr ⟨hu, h⟩

end SccState

end Pacer.Atomic
