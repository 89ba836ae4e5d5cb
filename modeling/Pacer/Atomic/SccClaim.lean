import Pacer.Atomic.SccInvariant
import Mathlib.Data.Fintype.Card
import Mathlib.Data.Finset.Card
import Mathlib.Algebra.BigOperators.Group.Finset.Piecewise

set_option autoImplicit false

/-! # The claimed section: exclusion, accounting and progress

Three properties of the coordinator in every reachable state.

* Exclusion: the generation is odd exactly while one call is in the claimed section, and only
  that call writes the fields of the window.
* Accounting: every counted call is a hit, a published window or still in flight
  (`sccStep_account` for one step).
* Progress: without a call in the claimed section, a call that runs alone returns. `solo` runs
  a call without interference; `run_of_solo` embeds such a run in the machine, and
  `solo_takeSnapshot` computes it: it is the sequential `Scc.takeSnapshot`.
-/

namespace Pacer.Atomic

open Machine

/-! ## Counting threads -/

section

variable {T α : Type} [Fintype T] [DecidableEq T]

/-- The number of threads whose entry satisfies `P`. -/
def threadCount (P : α → Bool) (f : T → α) : Nat :=
  (Finset.univ.filter (fun t => P (f t) = true)).card

/-- Changing the entry of one thread exchanges its contribution. -/
theorem threadCount_update (P : α → Bool) (f : T → α) (t : T) (a : α) :
    threadCount P (Function.update f t a) + (P (f t)).toNat
      = threadCount P f + (P a).toNat := by
  have hcount : ∀ g : T → α, threadCount P g
      = (P (g t)).toNat + ∑ u ∈ Finset.univ.erase t, (P (g u)).toNat := by
    intro g
    rw [Finset.add_sum_erase _ (fun u => (P (g u)).toNat) (Finset.mem_univ t), threadCount,
      Finset.card_filter]
    exact Finset.sum_congr rfl (fun u _ => by cases P (g u) <;> rfl)
  have hrest : ∑ u ∈ Finset.univ.erase t, (P (Function.update f t a u)).toNat
      = ∑ u ∈ Finset.univ.erase t, (P (f u)).toNat :=
    Finset.sum_congr rfl (fun u hu => by
      rw [Function.update_of_ne (Finset.ne_of_mem_erase hu)])
  rw [hcount, hcount f, Function.update_self, hrest]
  omega

end

section

variable {F : Type} [F64 F]

/-- The call has counted itself and has neither counted a hit nor published a window. -/
def inFlight : Option (SccPc F) → Bool
  | some p => p.counted
  | none => false

/-- The calls that ended: hits and published windows. -/
def ended (scc : Scc) : Nat := scc.hitCount + scc.windowGen / 2

/-- One step counts the call, or ends it, or moves it. -/
theorem sccStep_account {e₀ : Nat} {scc : Scc} {epoch : Nat} {p : SccPc F}
    (h : PcOk e₀ scc epoch p) :
    (sccStep scc epoch p).1.totalCount + ended scc + (inFlight (some p)).toNat
      = scc.totalCount + ended (sccStep scc epoch p).1
        + (inFlight (sccStep scc epoch p).2).toNat := by
  have hstep := sccStep_cases scc epoch p
  generalize (sccStep scc epoch p).1 = scc', (sccStep scc epoch p).2 = o at hstep ⊢
  cases hstep with
  | count | hit =>
      simp only [ended, inFlight, SccPc.counted, Bool.toNat_true, Bool.toNat_false]
      omega
  | claim nowNs gen newTs hgen =>
      -- `window_gen / 2` is the same for an even generation and the odd one after it
      have heven := h.1
      simp only [ended, inFlight, SccPc.counted, hgen]
      omega
  | publish nowNs gen newTs =>
      obtain ⟨heven, hgen, -⟩ := h
      simp only [ended, inFlight, SccPc.counted, hgen, Bool.toNat_true,
        Bool.toNat_false]
      omega
  | spin | loadGen | loadTs | loadOpenAt | coalesce | expired | loadEpoch | claimFails | rateZero
  | rateTotal | rateHits | loadP99 | storeW | storeTs | storeOpenAt => rfl

/-- Only a call in the claimed section writes the published fields. -/
theorem sccStep_fields {scc : Scc} {epoch : Nat} {p : SccPc F} (hp : p.claimed = false) :
    (sccStep scc epoch p).1.currentTs = scc.currentTs
      ∧ (sccStep scc epoch p).1.windowOpenAt = scc.windowOpenAt
      ∧ (sccStep scc epoch p).1.adaptiveWNs = scc.adaptiveWNs := by
  have hstep := sccStep_cases scc epoch p
  generalize (sccStep scc epoch p).1 = scc', (sccStep scc epoch p).2 = o at hstep ⊢
  cases hstep with
  | rateZero | rateTotal | rateHits | loadP99 | storeW | storeTs | storeOpenAt | publish =>
      cases hp
  | _ => exact ⟨rfl, rfl, rfl⟩

/-! ## A call that runs alone -/

/-- The program points a call passes through when no other thread takes a step, and the
coordinator it leaves behind; `none` if it has not returned after `fuel` steps. -/
def solo (epoch : Nat) : Nat → Scc → SccPc F → Option (List (SccPc F) × Scc)
  | 0, _, _ => none
  | fuel + 1, scc, p =>
      match sccStep scc epoch p with
      | (scc', none) => some ([p], scc')
      | (scc', some q) => (solo epoch fuel scc' q).map (fun r => (p :: r.1, r.2))

/-- The call is at the top of its loop. -/
def SccPc.atLoopTop : SccPc F → Bool
  | .loadGen _ => true
  | _ => false

/-- The program points of a call alone that coalesces into the published window. -/
def hitPath (scc : Scc) (nowNs : Nat) : List (SccPc F) :=
  [.count nowNs, .loadGen nowNs, .loadTs nowNs scc.windowGen,
    .loadOpenAt nowNs scc.windowGen scc.currentTs,
    .loadW nowNs scc.windowGen scc.currentTs scc.windowOpenAt,
    .hit nowNs scc.windowGen scc.currentTs scc.windowOpenAt scc.adaptiveWNs]

/-- The program points of a call alone that opens a window. -/
def openPath (scc : Scc) (nowNs epoch : Nat) : List (SccPc F) :=
  let rate : F := Scc.rateOf F scc.hitCount (scc.totalCount + 1)
  [.count nowNs, .loadGen nowNs, .loadTs nowNs scc.windowGen,
    .loadOpenAt nowNs scc.windowGen scc.currentTs,
    .loadW nowNs scc.windowGen scc.currentTs scc.windowOpenAt,
    .loadEpoch nowNs scc.windowGen, .claim nowNs scc.windowGen epoch,
    .rateTotal nowNs scc.windowGen epoch,
    .rateHits nowNs scc.windowGen epoch (scc.totalCount + 1),
    .loadP99 nowNs scc.windowGen epoch rate,
    .storeW nowNs scc.windowGen epoch (Scc.computeW F rate scc.p99Ns),
    .storeTs nowNs scc.windowGen epoch, .storeOpenAt nowNs scc.windowGen epoch,
    .publish nowNs scc.windowGen epoch]

/-- **A call alone on an even generation returns** after one pass of its loop, with the
timestamp and the coordinator of the sequential `takeSnapshot`. -/
theorem solo_takeSnapshot {scc : Scc} (heven : scc.windowGen % 2 = 0) (nowNs epoch : Nat) :
    ∃ ps ts scc', scc.takeSnapshot F nowNs epoch = some (scc', ts)
      ∧ solo epoch 14 scc (.count nowNs : SccPc F) = some (ps, scc')
      ∧ ps.countP SccPc.atLoopTop = 1 ∧ ps.getLast?.bind SccPc.returns = some ts := by
  have hgen : ¬ scc.windowGen % 2 = 1 := by omega
  by_cases hc : Scc.coalesces nowNs scc.windowGen scc.windowOpenAt scc.adaptiveWNs
  · -- the window covers the call
    have hseq : scc.takeSnapshot F nowNs epoch
        = some ({ scc with totalCount := scc.totalCount + 1, hitCount := scc.hitCount + 1 },
            scc.currentTs) := by
      simp only [Scc.takeSnapshot, if_neg hgen, if_pos hc]
    refine ⟨hitPath scc nowNs, _, _, hseq, ?_, rfl, rfl⟩
    simp only [solo, sccStep, if_neg hgen, if_pos hc, Option.map_some]
    rfl
  · -- the call opens a window, and has counted itself by then
    have htotal : ¬ scc.totalCount + 1 = 0 := by omega
    have hseq : scc.takeSnapshot F nowNs epoch
        = some ({ scc with
            totalCount := scc.totalCount + 1
            adaptiveWNs := Scc.computeW F (Scc.rateOf F scc.hitCount (scc.totalCount + 1))
              scc.p99Ns
            currentTs := epoch, windowOpenAt := nowNs, windowGen := scc.windowGen + 2 },
          epoch) := by
      simp only [Scc.takeSnapshot, if_neg hgen, if_neg hc]
      rfl
    refine ⟨openPath scc nowNs epoch, _, _, hseq, ?_, rfl, rfl⟩
    simp only [solo, sccStep, if_neg hgen, if_neg hc, if_neg htotal, if_true, Option.map_some]
    rfl

theorem solo_cons {epoch fuel : Nat} {scc scc' : Scc} {p q : SccPc F} {ps : List (SccPc F)}
    (hq : (sccStep scc epoch p).2 = some q)
    (h : solo epoch fuel (sccStep scc epoch p).1 q = some (ps, scc')) :
    solo epoch (fuel + 1) scc p = some (p :: ps, scc') := by
  have hstep : sccStep scc epoch p = ((sccStep scc epoch p).1, some q) := by rw [← hq]
  rw [solo, hstep]
  simp only [h, Option.map_some]

/-- Run alone from `p`, the call returns and is at the top of its loop at most `k` times. -/
def ReturnsAlone (epoch : Nat) (scc : Scc) (p : SccPc F) (k : Nat) : Prop :=
  ∃ fuel ps scc', solo epoch fuel scc p = some (ps, scc') ∧ ps.countP SccPc.atLoopTop ≤ k

theorem ReturnsAlone.of_step {epoch k : Nat} {scc : Scc} {p q : SccPc F}
    (hq : (sccStep scc epoch p).2 = some q)
    (h : ReturnsAlone epoch (sccStep scc epoch p).1 q k) :
    ReturnsAlone epoch scc p (k + p.atLoopTop.toNat) := by
  obtain ⟨fuel, ps, scc', hs, hk⟩ := h
  refine ⟨fuel + 1, p :: ps, scc', solo_cons hq hs, ?_⟩
  rw [List.countP_cons]
  cases p.atLoopTop <;> simp <;> omega

/-- The claimed section has no loop. -/
theorem returnsAlone_of_claimed {epoch : Nat} {p : SccPc F} (hp : p.claimed = true) :
    ∀ scc, ReturnsAlone epoch scc p 0 := by
  -- from the last instruction backwards
  have hpublish : ∀ nowNs gen newTs scc,
      ReturnsAlone epoch scc (.publish nowNs gen newTs : SccPc F) 0 :=
    fun nowNs gen newTs scc => ⟨1, [_], _, rfl, Nat.le_refl 0⟩
  have hopenAt : ∀ nowNs gen newTs scc,
      ReturnsAlone epoch scc (.storeOpenAt nowNs gen newTs : SccPc F) 0 :=
    fun nowNs gen newTs scc => .of_step rfl (hpublish nowNs gen newTs _)
  have hts : ∀ nowNs gen newTs scc,
      ReturnsAlone epoch scc (.storeTs nowNs gen newTs : SccPc F) 0 :=
    fun nowNs gen newTs scc => .of_step rfl (hopenAt nowNs gen newTs _)
  have hw : ∀ nowNs gen newTs newW scc,
      ReturnsAlone epoch scc (.storeW nowNs gen newTs newW : SccPc F) 0 :=
    fun nowNs gen newTs newW scc => .of_step rfl (hts nowNs gen newTs _)
  have hp99 : ∀ nowNs gen newTs (rate : F) scc,
      ReturnsAlone epoch scc (.loadP99 nowNs gen newTs rate) 0 :=
    fun nowNs gen newTs rate scc => .of_step rfl (hw nowNs gen newTs _ _)
  have hhits : ∀ nowNs gen newTs total scc,
      ReturnsAlone epoch scc (.rateHits nowNs gen newTs total : SccPc F) 0 :=
    fun nowNs gen newTs total scc => .of_step rfl (hp99 nowNs gen newTs _ _)
  intro scc
  cases p with
  | publish nowNs gen newTs => exact hpublish nowNs gen newTs scc
  | storeOpenAt nowNs gen newTs => exact hopenAt nowNs gen newTs scc
  | storeTs nowNs gen newTs => exact hts nowNs gen newTs scc
  | storeW nowNs gen newTs newW => exact hw nowNs gen newTs newW scc
  | loadP99 nowNs gen newTs rate => exact hp99 nowNs gen newTs rate scc
  | rateHits nowNs gen newTs total => exact hhits nowNs gen newTs total scc
  | rateTotal nowNs gen newTs =>
      by_cases hz : scc.totalCount = 0
      · exact .of_step (k := 0) (q := .loadP99 nowNs gen newTs (Scc.rateOf F 0 0))
          (by simp only [sccStep, if_pos hz]) (hp99 ..)
      · exact .of_step (k := 0) (q := .rateHits nowNs gen newTs scc.totalCount)
          (by simp only [sccStep, if_neg hz]) (hhits ..)
  | _ => cases hp

theorem ReturnsAlone.mono {epoch k k' : Nat} {scc : Scc} {p : SccPc F}
    (h : ReturnsAlone epoch scc p k) (hk : k ≤ k') : ReturnsAlone epoch scc p k' := by
  obtain ⟨fuel, ps, scc', hs, hle⟩ := h
  exact ⟨fuel, ps, scc', hs, le_trans hle hk⟩

/-- A pass with the generation `gen` ends in a return, or back at the top of the loop if `gen`
is stale. -/
theorem returnsAlone_pass {epoch k nowNs gen : Nat} {scc : Scc}
    (h : scc.windowGen = gen ∨ ReturnsAlone epoch scc (.loadGen nowNs : SccPc F) k) :
    (∀ newTs, ReturnsAlone epoch scc (.claim nowNs gen newTs : SccPc F) k)
      ∧ (∀ ts openedAt, ReturnsAlone epoch scc (.loadW nowNs gen ts openedAt : SccPc F) k) := by
  have hclaim : ∀ newTs, ReturnsAlone epoch scc (.claim nowNs gen newTs : SccPc F) k := by
    intro newTs
    by_cases hgen : scc.windowGen = gen
    · have hnext : (sccStep scc epoch (.claim nowNs gen newTs : SccPc F)).2
          = some (.rateTotal nowNs gen newTs) := by simp only [sccStep, if_pos hgen]
      exact (ReturnsAlone.of_step hnext (returnsAlone_of_claimed rfl _)).mono (Nat.zero_le k)
    · have hnext : sccStep scc epoch (.claim nowNs gen newTs : SccPc F)
          = (scc, some (.loadGen nowNs)) := by simp only [sccStep, if_neg hgen]
      have hloop : ReturnsAlone epoch scc (.loadGen nowNs : SccPc F) k :=
        h.resolve_left hgen
      exact .of_step (k := k) (by rw [hnext]) (by rw [hnext]; exact hloop)
  refine ⟨hclaim, fun ts openedAt => ?_⟩
  by_cases hc : Scc.coalesces nowNs gen openedAt scc.adaptiveWNs
  · have hnext : (sccStep scc epoch (.loadW nowNs gen ts openedAt : SccPc F)).2
        = some (.hit nowNs gen ts openedAt scc.adaptiveWNs) := by
      simp only [sccStep, if_pos hc]
    exact (ReturnsAlone.of_step hnext ⟨1, [_], _, rfl, Nat.le_refl 0⟩).mono (Nat.zero_le k)
  · have hnext : sccStep scc epoch (.loadW nowNs gen ts openedAt : SccPc F)
        = (scc, some (.loadEpoch nowNs gen)) := by simp only [sccStep, if_neg hc]
    refine .of_step (k := k) (by rw [hnext]) ?_
    rw [hnext]
    exact .of_step (k := k) rfl (hclaim epoch)

/-- **No livelock**: a call outside the claimed section that runs alone on an even generation
returns, and is at the top of its loop at most once more. -/
theorem returnsAlone_of_even {epoch : Nat} {p : SccPc F} (hp : p.claimed = false) {scc : Scc}
    (heven : scc.windowGen % 2 = 0) : ReturnsAlone epoch scc p 1 := by
  -- from the top the call sees the current generation, and no other thread can make it stale
  have htop : ∀ nowNs scc, scc.windowGen % 2 = 0 →
      ReturnsAlone epoch scc (.loadGen nowNs : SccPc F) 1 := by
    intro nowNs scc heven
    have hgen : ¬ scc.windowGen % 2 = 1 := by omega
    have hnext : sccStep scc epoch (.loadGen nowNs : SccPc F)
        = (scc, some (.loadTs nowNs scc.windowGen)) := by simp only [sccStep, if_neg hgen]
    refine .of_step (k := 0) (by rw [hnext]) ?_
    rw [hnext]
    exact .of_step (k := 0) rfl (.of_step (k := 0) rfl
      ((returnsAlone_pass (Or.inl rfl)).2 _ _))
  cases p with
  | count nowNs => exact .of_step (k := 1) rfl (htop nowNs _ heven)
  | loadGen nowNs => exact htop nowNs scc heven
  | loadTs nowNs gen =>
      exact .of_step (k := 1) rfl (.of_step (k := 1) rfl
        ((returnsAlone_pass (Or.inr (htop nowNs scc heven))).2 _ _))
  | loadOpenAt nowNs gen ts =>
      exact .of_step (k := 1) rfl ((returnsAlone_pass (Or.inr (htop nowNs scc heven))).2 _ _)
  | loadW nowNs gen ts openedAt =>
      exact (returnsAlone_pass (Or.inr (htop nowNs scc heven))).2 _ _
  | hit => exact ⟨1, [_], _, rfl, Nat.zero_le 1⟩
  | loadEpoch nowNs gen =>
      exact .of_step (k := 1) rfl ((returnsAlone_pass (Or.inr (htop nowNs scc heven))).1 _)
  | claim nowNs gen newTs => exact (returnsAlone_pass (Or.inr (htop nowNs scc heven))).1 _
  | rateTotal | rateHits | loadP99 | storeW | storeTs | storeOpenAt | publish => cases hp

end

/-! ## The reachable states -/

namespace SccState

variable {F T : Type} [F64 F] [DecidableEq T]

/-- Thread `t` is between its successful compare-exchange and its publishing store. -/
def Claimed (s : SccState F T) (t : T) : Prop := ∃ p, s.pc t = some p ∧ p.claimed = true

/-- How often thread `t` is at the top of its loop in a run. -/
def passes (t : T) (tr : List (Trans (SccState F T) (SccAction T))) : Nat :=
  (tr.map (fun x => x.pre.pc t)).countP (Option.any SccPc.atLoopTop)

omit [F64 F] [DecidableEq T] in
theorem passes_of_points {t : T} {tr : List (Trans (SccState F T) (SccAction T))}
    {ps : List (SccPc F)} (h : tr.map (fun x => x.pre.pc t) = ps.map some) :
    passes t tr = ps.countP SccPc.atLoopTop := by
  rw [passes, h, List.countP_map]
  rfl

omit [F64 F] [DecidableEq T] in
theorem even_of_not_claimed {e₀ : Nat} {s : SccState F T} (h : SccInv e₀ s)
    (hno : ∀ t, ¬ s.Claimed t) : s.scc.windowGen % 2 = 0 := by
  by_contra hodd
  obtain ⟨t, p, hp, hc⟩ := h.opener (by omega)
  exact hno t ⟨p, hp, hc⟩

/-- A solo execution is a run in which only `t` takes steps. -/
theorem run_of_solo {t : T} {fuel : Nat} {scc' : Scc} :
    ∀ {s : SccState F T} {p : SccPc F} {ps : List (SccPc F)},
      solo s.epoch fuel s.scc p = some (ps, scc') → s.pc t = some p →
      ∃ tr s', Run step s tr s' ∧ tr.map Trans.act = List.replicate ps.length (.run t)
        ∧ tr.map (fun x => x.pre.pc t) = ps.map some ∧ s'.scc = scc' ∧ s'.pc t = none := by
  induction fuel with
  | zero => intro s p ps h; cases h
  | succ fuel ih =>
      intro s p ps h hp
      have hstep : step s (.run t) = some { s with
          scc := (sccStep s.scc s.epoch p).1
          pc := Function.update s.pc t (sccStep s.scc s.epoch p).2
          opened := (opens s.scc p).toList ++ s.opened } := by
        simp only [step, hp]
      rw [solo] at h
      split at h
      · -- the last step
        rename_i scc₁ heq
        obtain ⟨rfl, rfl⟩ := Prod.mk.inj (Option.some.inj h)
        exact ⟨_, _, Run.single hstep, rfl, by simp [hp], by simp [heq], by simp [heq]⟩
      · rename_i scc₁ q heq
        obtain ⟨⟨qs, _⟩, hsolo, hps⟩ := Option.map_eq_some_iff.mp h
        obtain ⟨rfl, rfl⟩ := Prod.mk.inj hps
        rw [heq] at hstep
        obtain ⟨tr, s', hr, hact, hpc, hscc, hnone⟩ :=
          ih (s := { s with
            scc := scc₁, pc := Function.update s.pc t (some q)
            opened := (opens s.scc p).toList ++ s.opened }) hsolo (Function.update_self ..)
        exact ⟨_, s', Run.cons hstep hr, by simp [hact, List.replicate_succ], by simp [hp, hpc],
          hscc, hnone⟩

omit [F64 F] [DecidableEq T] in
theorem odd_iff_claimed {e₀ : Nat} {s : SccState F T} (h : SccInv e₀ s) :
    s.scc.windowGen % 2 = 1 ↔ ∃! t, s.Claimed t := by
  constructor
  · intro hodd
    obtain ⟨t, p, hp, hc⟩ := h.opener hodd
    refine ⟨t, ⟨p, hp, hc⟩, fun u hu => ?_⟩
    obtain ⟨q, hq, hcq⟩ := hu
    exact h.unique u t q p hq hp hcq hc
  · rintro ⟨t, ⟨p, hp, hc⟩, -⟩
    exact (h.ok t p hp).odd hc

/-- The step of a call keeps the account. -/
theorem account_run [Fintype T] {e₀ : Nat} {s : SccState F T} (h : SccInv e₀ s) {t : T}
    {p : SccPc F} (hp : s.pc t = some p)
    (hacc : s.scc.totalCount = ended s.scc + threadCount inFlight s.pc) :
    (sccStep s.scc s.epoch p).1.totalCount = ended (sccStep s.scc s.epoch p).1
      + threadCount inFlight (Function.update s.pc t (sccStep s.scc s.epoch p).2) := by
  have hone := sccStep_account (h.ok t p hp)
  have hall := threadCount_update inFlight s.pc t (sccStep s.scc s.epoch p).2
  rw [hp] at hall
  omega

theorem account_step [Fintype T] {e₀ : Nat} {s s' : SccState F T} {a : SccAction T}
    (h : SccInv e₀ s) (hs : step s a = some s')
    (hacc : s.scc.totalCount = ended s.scc + threadCount inFlight s.pc) :
    s'.scc.totalCount = ended s'.scc + threadCount inFlight s'.pc := by
  rcases step_cases hs with ⟨t, nowNs, -, hidle, rfl⟩ | ⟨t, p, -, hp, rfl⟩ | ⟨k, v, rfl, -⟩
  · have hall := threadCount_update inFlight s.pc t (some (.count nowNs))
    rw [hidle] at hall
    simp only [inFlight, SccPc.counted, Bool.toNat_false, Nat.add_zero] at hall
    rw [hacc]
    exact congrArg _ hall.symm
  · exact account_run h hp hacc
  · exact hacc

theorem account_of_run [Fintype T] {epoch : Nat} {s : SccState F T}
    {tr : List (Trans (SccState F T) (SccAction T))} (h : Run step (init F T epoch) tr s) :
    s.scc.totalCount = ended s.scc + threadCount inFlight s.pc := by
  have hinit : threadCount inFlight (init F T epoch).pc = 0 := by
    simp [threadCount, init, inFlight]
  refine (h.invariant (I := fun s => SccInv epoch s ∧ _) ⟨sccInv_init le_rfl, ?_⟩
    (fun _ _ _ hI hs => ⟨sccInv_step hI.1 hs, account_step hI.1 hs hI.2⟩)).2
  rw [hinit]
  simp [init, Scc.new, ended]

theorem fields_of_not_claimed {s s' : SccState F T} {a : SccAction T}
    (hs : step s a = some s') (hno : ∀ t, a = .run t → ¬ s.Claimed t) :
    s'.scc.currentTs = s.scc.currentTs ∧ s'.scc.windowOpenAt = s.scc.windowOpenAt
      ∧ s'.scc.adaptiveWNs = s.scc.adaptiveWNs := by
  rcases step_cases hs with ⟨t, nowNs, -, -, rfl⟩ | ⟨t, p, ha, hp, rfl⟩ | ⟨k, v, rfl, -⟩
  · exact ⟨rfl, rfl, rfl⟩
  · refine sccStep_fields ?_
    by_contra hc
    exact hno t ha ⟨p, hp, by simpa using hc⟩
  · exact ⟨rfl, rfl, rfl⟩

/-- A call started in a state without a claimed section and run alone returns what the
sequential `takeSnapshot` returns, after one pass. -/
theorem call_alone_returns {s : SccState F T} (heven : s.scc.windowGen % 2 = 0) {t : T}
    (ht : s.pc t = none) (nowNs : Nat) :
    ∃ tr s' k ts, Run step s tr s'
      ∧ tr.map Trans.act = .call t nowNs :: List.replicate k (.run t)
      ∧ passes t tr = 1 ∧ s'.pc t = none
      ∧ s.scc.takeSnapshot F nowNs s.epoch = some (s'.scc, ts) := by
  have hcall : step s (.call t nowNs)
      = some { s with pc := Function.update s.pc t (some (.count nowNs)) } := by
    simp only [step, ht]
  obtain ⟨ps, ts, scc', hseq, hsolo, hps, -⟩ :=
    solo_takeSnapshot (F := F) heven nowNs s.epoch
  obtain ⟨tr, s', hr, hact, hpc, rfl, hnone⟩ :=
    run_of_solo (s := { s with pc := Function.update s.pc t (some (.count nowNs)) }) hsolo
      (Function.update_self ..)
  refine ⟨_, s', ps.length, ts, Run.cons hcall hr, by rw [List.map_cons, hact], ?_, hnone, hseq⟩
  have hidle : ∀ r, passes t (⟨s, .call t nowNs, r⟩ :: tr) = passes t tr := by
    intro r
    simp [passes, ht]
  rw [hidle, passes_of_points hpc, hps]

/-- A call in flight that runs alone returns, after at most one more pass. -/
theorem inFlight_alone_returns {s : SccState F T} (heven : s.scc.windowGen % 2 = 0) {t : T}
    {p : SccPc F} (hp : s.pc t = some p) (hc : p.claimed = false) :
    ∃ tr s' k, Run step s tr s' ∧ tr.map Trans.act = List.replicate k (.run t)
      ∧ passes t tr ≤ 1 ∧ s'.pc t = none := by
  obtain ⟨fuel, ps, scc', hsolo, hps⟩ := returnsAlone_of_even (F := F) hc heven
  obtain ⟨tr, s', hr, hact, hpc, -, hnone⟩ := run_of_solo hsolo hp
  refine ⟨tr, s', ps.length, hr, hact, ?_, hnone⟩
  rw [passes_of_points hpc]
  exact hps

/-- **The window claim is exclusive, accounted for and never livelocks**, in every reachable
state: the generation is odd exactly while one call is in the claimed section, and only that
call writes the window; `total_count` counts the hits, the published windows and the calls in
flight; and when nobody is in the section, a call that runs alone returns, a new one after a
single pass of its loop and one in flight after at most one further pass. -/
theorem claim_exclusive_accounted_live [Fintype T] {epoch : Nat} {s : SccState F T}
    {tr : List (Trans (SccState F T) (SccAction T))} (h : Run step (init F T epoch) tr s) :
    ((s.scc.windowGen % 2 = 1 ↔ ∃! t, s.Claimed t)
        ∧ (∀ t u, s.Claimed t → s.Claimed u → t = u)
        ∧ (∀ a s', step s a = some s' → (∀ t, a = .run t → ¬ s.Claimed t) →
            s'.scc.currentTs = s.scc.currentTs ∧ s'.scc.windowOpenAt = s.scc.windowOpenAt
              ∧ s'.scc.adaptiveWNs = s.scc.adaptiveWNs))
      ∧ s.scc.totalCount
          = s.scc.hitCount + s.scc.windowGen / 2 + threadCount inFlight s.pc
      ∧ ((∀ t, ¬ s.Claimed t) →
          (∀ t nowNs, s.pc t = none → ∃ tr' s' k ts, Run step s tr' s'
            ∧ tr'.map Trans.act = .call t nowNs :: List.replicate k (.run t)
            ∧ passes t tr' = 1 ∧ s'.pc t = none
            ∧ s.scc.takeSnapshot F nowNs s.epoch = some (s'.scc, ts))
          ∧ (∀ t p, s.pc t = some p → ∃ tr' s' k, Run step s tr' s'
            ∧ tr'.map Trans.act = List.replicate k (.run t)
            ∧ passes t tr' ≤ 1 ∧ s'.pc t = none)) := by
  have hinv := sccInv_of_run h
  refine ⟨⟨odd_iff_claimed hinv, ?_, fun a s' => fields_of_not_claimed⟩, account_of_run h,
    fun hno => ?_⟩
  · rintro t u ⟨p, hp, hc⟩ ⟨q, hq, hd⟩
    exact hinv.unique t u p q hp hq hc hd
  · have heven := even_of_not_claimed hinv hno
    refine ⟨fun t nowNs ht => call_alone_returns heven ht nowNs, fun t p hp => ?_⟩
    refine inFlight_alone_returns heven hp ?_
    -- a call in the claimed section would be one
    by_contra hc
    exact hno t ⟨p, hp, by simpa using hc⟩

/-- A reader has started while another call opens the first window. -/
theorem claim_exclusive_accounted_live_first :
    ∃ s : SccState ℚ (Fin 2), s.scc.windowGen = 1
      ∧ ((s.scc.windowGen % 2 = 1 ↔ ∃! t, s.Claimed t)
        ∧ s.scc.totalCount
          = s.scc.hitCount + s.scc.windowGen / 2 + threadCount inFlight s.pc) := by
  obtain ⟨tr, s, hr, hs⟩ := exists_run_of_replay step (init ℚ (Fin 2) 1)
    [.call 0 7, .call 1 9, .run 0, .run 0, .run 1, .run 0, .run 0, .run 0, .run 0, .run 0]
    (fun _ s => s.scc.windowGen == 1) (by decide)
  have hmain := claim_exclusive_accounted_live hr
  exact ⟨s, by simpa using hs, hmain.1.1, hmain.2.1⟩

end SccState

end Pacer.Atomic
