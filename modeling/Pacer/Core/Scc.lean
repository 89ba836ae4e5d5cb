import Pacer.Core.F64

set_option autoImplicit false

/-! # The snapshot coalescing coordinator

`windowGen` is even while the published window is stable and odd while an opener is writing
it; `0` means that no window was ever opened. The 64-bit counters are natural numbers: none
of them wraps around before `2 ^ 64` operations.

`Scc.takeSnapshot` is a call that runs alone, from its first instruction to its return. The
interleaved instructions are in `Atomic/SccSteps.lean`.
-/

namespace Pacer

def sccMinWindowNs : Nat := 100000
def sccMaxWindowNs : Nat := 5000000
def sccTargetP99Ns : Nat := 2000000

structure Scc where
  windowGen : Nat
  currentTs : Nat
  windowOpenAt : Nat
  hitCount : Nat
  totalCount : Nat
  adaptiveWNs : Nat
  p99Ns : Nat
  deriving DecidableEq

namespace Scc

def new : Scc :=
  { windowGen := 0, currentTs := 0, windowOpenAt := 0, hitCount := 0, totalCount := 0,
    adaptiveWNs := sccMinWindowNs, p99Ns := 0 }

section

variable (F : Type) [F64 F]

def computeW (hitRate : F) (p99Ns : Nat) : Nat :=
  let headroom : F := F64.lit 1 - F64.min (F64.ofU64 p99Ns / F64.ofU64 sccTargetP99Ns) (F64.lit 1)
  let factor : F :=
    F64.clamp (hitRate * F64.lit (6 / 10) + headroom * F64.lit (4 / 10)) (F64.lit 0) (F64.lit 1)
  F64.toU64 (F64.ofU64 sccMinWindowNs + factor * F64.ofU64 (sccMaxWindowNs - sccMinWindowNs))

/-- The quotient of `hit_rate`, from the two counters as they were loaded. -/
def rateOf (hits total : Nat) : F :=
  if total = 0 then F64.lit 0 else F64.ofU64 hits / F64.ofU64 total

def hitRate (s : Scc) : F := rateOf F s.hitCount s.totalCount

/-- The new value of `p99_ns` after a sample `ns`. -/
def smoothed (prev ns : Nat) : Nat :=
  F64.toU64 ((F64.ofU64 prev : F) * F64.lit (9 / 10) + F64.ofU64 ns * F64.lit (1 / 10))

def recordLatencyNs (s : Scc) (ns : Nat) : Scc := { s with p99Ns := smoothed F s.p99Ns ns }

end

/-- The test of the coalescing path, on the values the call loaded. -/
def coalesces (nowNs gen openedAt w : Nat) : Prop := gen ≠ 0 ∧ nowNs - openedAt < w

instance (nowNs gen openedAt w : Nat) : Decidable (coalesces nowNs gen openedAt w) :=
  inferInstanceAs (Decidable (_ ∧ _))

/-- `take_snapshot` run alone: the coordinator and the returned timestamp. On an odd
generation the call spins and does not return. -/
def takeSnapshot (F : Type) [F64 F] (s : Scc) (nowNs globalEpoch : Nat) : Option (Scc × Nat) :=
  let s := { s with totalCount := s.totalCount + 1 }
  let gen := s.windowGen
  if gen % 2 = 1 then none
  else
    let ts := s.currentTs
    if coalesces nowNs gen s.windowOpenAt s.adaptiveWNs then
      some ({ s with hitCount := s.hitCount + 1 }, ts)
    else
      let newTs := globalEpoch
      let newW := computeW F (s.hitRate F) s.p99Ns
      some ({ s with
        adaptiveWNs := newW, currentTs := newTs, windowOpenAt := nowNs,
        windowGen := gen + 2 }, newTs)

/-- **The two ways a call returns**: it coalesces into the published window, or it opens a new
one at the current epoch. -/
theorem takeSnapshot_spec {F : Type} [F64 F] {s s' : Scc} {nowNs globalEpoch ts : Nat}
    (h : s.takeSnapshot F nowNs globalEpoch = some (s', ts)) :
    s.windowGen % 2 = 0 ∧
      ((coalesces nowNs s.windowGen s.windowOpenAt s.adaptiveWNs ∧ ts = s.currentTs
          ∧ s' = { s with totalCount := s.totalCount + 1, hitCount := s.hitCount + 1 })
        ∨ (¬ coalesces nowNs s.windowGen s.windowOpenAt s.adaptiveWNs ∧ ts = globalEpoch
          ∧ s'.windowGen = s.windowGen + 2 ∧ s'.currentTs = globalEpoch
          ∧ s'.windowOpenAt = nowNs)) := by
  unfold takeSnapshot at h
  dsimp only at h
  split at h
  · cases h
  · rename_i hgen
    refine ⟨by omega, ?_⟩
    split at h
    · rename_i hc
      simp only [Option.some.injEq, Prod.mk.injEq] at h
      obtain ⟨rfl, rfl⟩ := h
      exact Or.inl ⟨hc, rfl, rfl⟩
    · rename_i hc
      simp only [Option.some.injEq, Prod.mk.injEq] at h
      obtain ⟨rfl, rfl⟩ := h
      exact Or.inr ⟨hc, rfl, rfl, rfl, rfl⟩

/-- On an even generation a call that runs alone returns. -/
theorem takeSnapshot_isSome {F : Type} [F64 F] {s : Scc} (h : s.windowGen % 2 = 0)
    (nowNs globalEpoch : Nat) : ∃ s' ts, s.takeSnapshot F nowNs globalEpoch = some (s', ts) := by
  have hgen : ¬ s.windowGen % 2 = 1 := by omega
  unfold takeSnapshot
  dsimp only
  rw [if_neg hgen]
  split
  · exact ⟨_, _, rfl⟩
  · exact ⟨_, _, rfl⟩

end Scc

end Pacer
