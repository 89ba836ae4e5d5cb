import Pacer.Atomic.SccSteps

set_option autoImplicit false

/-! # The invariant of the coordinator

`PcOk` relates the local variables of one call to the shared fields; `SccInv` collects what
holds of all calls in every reachable state. The work is split between the thread that moves
and the others: `sccStep_effect` says what a step can do to the fields of the window,
`pcOk_of_effect` that the facts of another call survive it, and `pcOk_sccStep` that the moving
call establishes the facts of its next program point.
-/

namespace Pacer.Atomic

open Machine

section

variable {F : Type} [F64 F]

/-- What a call knows at its program point. Before its compare-exchange it has seen an even
generation that is not in the future; if the generation is still the one it saw, its epoch
value is no older than the published timestamp. After the compare-exchange the generation is
the odd one it installed. -/
def PcOk (e₀ : Nat) (scc : Scc) (epoch : Nat) : SccPc F → Prop
  | .count _ | .loadGen _ => True
  | .loadTs _ gen | .loadEpoch _ gen => gen % 2 = 0 ∧ gen ≤ scc.windowGen
  | .loadOpenAt _ gen ts | .loadW _ gen ts _ =>
      gen % 2 = 0 ∧ gen ≤ scc.windowGen ∧ ts ≤ scc.currentTs ∧ (gen ≠ 0 → e₀ ≤ ts)
  | .hit nowNs gen ts openedAt w =>
      ts ≤ scc.currentTs ∧ e₀ ≤ ts ∧ Scc.coalesces nowNs gen openedAt w
        ∧ gen % 2 = 0 ∧ gen ≤ scc.windowGen
  | .claim _ gen newTs =>
      gen % 2 = 0 ∧ gen ≤ scc.windowGen ∧ e₀ ≤ newTs ∧ newTs ≤ epoch
        ∧ (gen = scc.windowGen → scc.currentTs ≤ newTs)
  | .rateTotal _ gen newTs | .rateHits _ gen newTs _ | .loadP99 _ gen newTs _
  | .storeW _ gen newTs _ | .storeTs _ gen newTs =>
      gen % 2 = 0 ∧ scc.windowGen = gen + 1 ∧ e₀ ≤ newTs ∧ newTs ≤ epoch
        ∧ scc.currentTs ≤ newTs
  | .storeOpenAt _ gen newTs | .publish _ gen newTs =>
      gen % 2 = 0 ∧ scc.windowGen = gen + 1 ∧ e₀ ≤ newTs ∧ newTs ≤ epoch
        ∧ scc.currentTs = newTs

omit [F64 F] in
/-- A call in the claimed section sees the odd generation it installed. -/
theorem PcOk.odd {e₀ : Nat} {scc : Scc} {epoch : Nat} {p : SccPc F} (h : PcOk e₀ scc epoch p)
    (hc : p.claimed = true) : scc.windowGen % 2 = 1 := by
  cases p <;> simp only [SccPc.claimed, Bool.false_eq_true] at hc <;>
    simp only [PcOk] at h <;> omega

/-- What a step does to the generation and the timestamp: nothing, or it claims an even
generation, or it writes inside the claimed section, or it publishes. -/
inductive Effect (scc scc' : Scc) : Prop where
  | none (hgen : scc'.windowGen = scc.windowGen) (hts : scc'.currentTs = scc.currentTs)
  | claim (heven : scc.windowGen % 2 = 0) (hgen : scc'.windowGen = scc.windowGen + 1)
      (hts : scc'.currentTs = scc.currentTs)
  | write (hodd : scc.windowGen % 2 = 1) (hgen : scc'.windowGen = scc.windowGen)
      (hts : scc.currentTs ≤ scc'.currentTs)
  | publish (hodd : scc.windowGen % 2 = 1) (hgen : scc'.windowGen = scc.windowGen + 1)
      (hts : scc'.currentTs = scc.currentTs)

theorem sccStep_effect {e₀ : Nat} {scc : Scc} {epoch : Nat} {p : SccPc F}
    (h : PcOk e₀ scc epoch p) : Effect scc (sccStep scc epoch p).1 := by
  have hstep := sccStep_cases scc epoch p
  generalize (sccStep scc epoch p).1 = scc', (sccStep scc epoch p).2 = o at hstep ⊢
  cases hstep with
  | claim nowNs gen newTs hgen => exact .claim (by rw [hgen]; exact h.1) (by rw [hgen]) rfl
  | storeTs => exact .write (h.odd rfl) rfl h.2.2.2.2
  | publish nowNs gen newTs =>
      obtain ⟨heven, hgen, -⟩ := h
      exact .publish (by omega) (by dsimp only; omega) rfl
  | count | spin | loadGen | loadTs | loadOpenAt | coalesce | expired | hit | loadEpoch
  | claimFails | rateZero | rateTotal | rateHits | loadP99 | storeW | storeOpenAt =>
      exact .none rfl rfl

/-- A step never lowers the published timestamp or the generation. -/
theorem Effect.mono {scc scc' : Scc} (h : Effect scc scc') :
    scc.currentTs ≤ scc'.currentTs ∧ scc.windowGen ≤ scc'.windowGen := by
  cases h <;> omega

omit [F64 F] in
/-- The facts of a call survive the step of another one, as long as the two are not in the
claimed section together. -/
theorem pcOk_of_effect {e₀ : Nat} {scc scc' : Scc} {epoch : Nat} {q : SccPc F}
    (h : PcOk e₀ scc epoch q) (he : Effect scc scc')
    (hq : q.claimed = true → scc'.windowGen = scc.windowGen ∧ scc'.currentTs = scc.currentTs) :
    PcOk e₀ scc' epoch q := by
  obtain ⟨hts, hgen⟩ := he.mono
  cases q with
  | count => trivial
  | loadGen => trivial
  | loadTs => exact ⟨h.1, le_trans h.2 hgen⟩
  | loadEpoch => exact ⟨h.1, le_trans h.2 hgen⟩
  | loadOpenAt => exact ⟨h.1, le_trans h.2.1 hgen, le_trans h.2.2.1 hts, h.2.2.2⟩
  | loadW => exact ⟨h.1, le_trans h.2.1 hgen, le_trans h.2.2.1 hts, h.2.2.2⟩
  | hit => exact ⟨le_trans h.1 hts, h.2.1, h.2.2.1, h.2.2.2.1, le_trans h.2.2.2.2 hgen⟩
  | claim nowNs gen newTs =>
      obtain ⟨h₁, h₂, h₃, h₄, h₅⟩ := h
      refine ⟨h₁, le_trans h₂ hgen, h₃, h₄, fun heq => ?_⟩
      -- an even generation that is still current has seen no write
      cases he with
      | none hg ht => rw [ht]; exact h₅ (by rw [heq, hg])
      | claim heven hg ht => omega
      | write hodd hg ht => omega
      | publish hodd hg ht => omega
  | rateTotal => obtain ⟨hg, ht⟩ := hq rfl; simpa only [PcOk, hg, ht] using h
  | rateHits => obtain ⟨hg, ht⟩ := hq rfl; simpa only [PcOk, hg, ht] using h
  | loadP99 => obtain ⟨hg, ht⟩ := hq rfl; simpa only [PcOk, hg, ht] using h
  | storeW => obtain ⟨hg, ht⟩ := hq rfl; simpa only [PcOk, hg, ht] using h
  | storeTs => obtain ⟨hg, ht⟩ := hq rfl; simpa only [PcOk, hg, ht] using h
  | storeOpenAt => obtain ⟨hg, ht⟩ := hq rfl; simpa only [PcOk, hg, ht] using h
  | publish => obtain ⟨hg, ht⟩ := hq rfl; simpa only [PcOk, hg, ht] using h

omit [F64 F] in
/-- The facts of a call survive an advance of the epoch. -/
theorem pcOk_epoch {e₀ : Nat} {scc : Scc} {epoch epoch' : Nat} {q : SccPc F}
    (h : PcOk e₀ scc epoch q) (hle : epoch ≤ epoch') : PcOk e₀ scc epoch' q := by
  cases q with
  | claim => exact ⟨h.1, h.2.1, h.2.2.1, le_trans h.2.2.2.1 hle, h.2.2.2.2⟩
  | rateTotal => exact ⟨h.1, h.2.1, h.2.2.1, le_trans h.2.2.2.1 hle, h.2.2.2.2⟩
  | rateHits => exact ⟨h.1, h.2.1, h.2.2.1, le_trans h.2.2.2.1 hle, h.2.2.2.2⟩
  | loadP99 => exact ⟨h.1, h.2.1, h.2.2.1, le_trans h.2.2.2.1 hle, h.2.2.2.2⟩
  | storeW => exact ⟨h.1, h.2.1, h.2.2.1, le_trans h.2.2.2.1 hle, h.2.2.2.2⟩
  | storeTs => exact ⟨h.1, h.2.1, h.2.2.1, le_trans h.2.2.2.1 hle, h.2.2.2.2⟩
  | storeOpenAt => exact ⟨h.1, h.2.1, h.2.2.1, le_trans h.2.2.2.1 hle, h.2.2.2.2⟩
  | publish => exact ⟨h.1, h.2.1, h.2.2.1, le_trans h.2.2.2.1 hle, h.2.2.2.2⟩
  | _ => exact h

/-- The moving call establishes the facts of its next program point. -/
theorem pcOk_sccStep {e₀ : Nat} {scc : Scc} {epoch : Nat} {p q : SccPc F} (h : PcOk e₀ scc epoch p)
    (hts : scc.currentTs ≤ epoch) (hpos : e₀ ≤ epoch)
    (hwin : 2 ≤ scc.windowGen → e₀ ≤ scc.currentTs)
    (hq : (sccStep scc epoch p).2 = some q) : PcOk e₀ (sccStep scc epoch p).1 epoch q := by
  have hstep := sccStep_cases scc epoch p
  rw [hq] at hstep
  generalize (sccStep scc epoch p).1 = scc' at hstep ⊢
  cases hstep with
  | count | spin | claimFails => trivial
  | loadGen nowNs heven => exact ⟨heven, le_rfl⟩
  | loadTs nowNs gen =>
      -- an even generation other than 0 means that a window was published
      have heven := h.1
      have hle := h.2
      exact ⟨heven, hle, le_rfl, fun hne => hwin (by omega)⟩
  | coalesce nowNs gen ts openedAt hc => exact ⟨h.2.2.1, h.2.2.2 hc.1, hc, h.1, h.2.1⟩
  | expired => exact ⟨h.1, h.2.1⟩
  | loadEpoch => exact ⟨h.1, h.2, hpos, le_rfl, fun _ => hts⟩
  | claim nowNs gen newTs hgen =>
      exact ⟨h.1, rfl, h.2.2.1, h.2.2.2.1, h.2.2.2.2 hgen.symm⟩
  | storeTs => exact ⟨h.1, h.2.1, h.2.2.1, h.2.2.2.1, rfl⟩
  | loadOpenAt | rateZero | rateTotal | rateHits | loadP99 | storeW | storeOpenAt => exact h

end

namespace SccState

variable {F T : Type} [F64 F] [DecidableEq T]

structure SccInv (e₀ : Nat) (s : SccState F T) : Prop where
  epoch_ge : e₀ ≤ s.epoch
  ts_le : s.scc.currentTs ≤ s.epoch
  /-- Once a window was published the timestamp is an epoch value, not the initial `0`. -/
  ts_ge : 2 ≤ s.scc.windowGen → e₀ ≤ s.scc.currentTs
  /-- An odd generation has its opener. -/
  opener : s.scc.windowGen % 2 = 1 → ∃ t p, s.pc t = some p ∧ p.claimed = true
  unique : ∀ t u p q, s.pc t = some p → s.pc u = some q → p.claimed = true →
    q.claimed = true → t = u
  ok : ∀ t p, s.pc t = some p → PcOk e₀ s.scc s.epoch p

omit [F64 F] [DecidableEq T] in
/-- While a call is in the claimed section every other call is outside of it. -/
theorem SccInv.alone {e₀ : Nat} {s : SccState F T} (h : SccInv e₀ s) {t u : T} {p q : SccPc F}
    (hp : s.pc t = some p) (hq : s.pc u = some q) (hne : u ≠ t) (hc : q.claimed = true) :
    p.claimed = false := by
  by_contra hpc
  exact hne (h.unique u t q p hq hp hc (by simpa using hpc))

omit [F64 F] [DecidableEq T] in
theorem sccInv_init {e₀ epoch : Nat} (h : e₀ ≤ epoch) : SccInv e₀ (init F T epoch) where
  epoch_ge := h
  ts_le := by simp [init, Scc.new]
  ts_ge := by simp [init, Scc.new]
  opener := by simp [init, Scc.new]
  unique := by simp [init]
  ok := by simp [init]

/-- Entering the claimed section: only a successful compare-exchange does, and it takes an
even generation. -/
theorem claimed_sccStep {scc : Scc} {epoch : Nat} {p q : SccPc F}
    (hq : (sccStep scc epoch p).2 = some q) (hc : q.claimed = true) :
    p.claimed = true ∨ ∃ nowNs gen newTs, p = .claim nowNs gen newTs ∧ scc.windowGen = gen := by
  have hstep := sccStep_cases scc epoch p
  rw [hq] at hstep
  generalize (sccStep scc epoch p).1 = scc' at hstep
  cases hstep with
  | claim nowNs gen newTs hgen => exact Or.inr ⟨nowNs, gen, newTs, rfl, hgen⟩
  | rateZero | rateTotal | rateHits | loadP99 | storeW | storeTs | storeOpenAt =>
      exact Or.inl rfl
  | count | spin | loadGen | loadTs | loadOpenAt | coalesce | expired | loadEpoch | claimFails =>
      cases hc

/-- Leaving the claimed section: only the publishing store does, and it makes the generation
even. -/
theorem claimed_next {e₀ : Nat} {scc : Scc} {epoch : Nat} {p : SccPc F} (h : PcOk e₀ scc epoch p)
    (hodd : (sccStep scc epoch p).1.windowGen % 2 = 1)
    (hc : p.claimed = true ∨ scc.windowGen % 2 = 0) :
    ∃ q, (sccStep scc epoch p).2 = some q ∧ q.claimed = true := by
  have hstep := sccStep_cases scc epoch p
  generalize (sccStep scc epoch p).1 = scc', (sccStep scc epoch p).2 = o at hstep hodd ⊢
  cases hstep with
  | claim | rateZero | rateTotal | rateHits | loadP99 | storeW | storeTs | storeOpenAt =>
      exact ⟨_, rfl, rfl⟩
  | publish nowNs gen newTs =>
      have heven := h.1
      dsimp only at hodd
      omega
  | count | spin | loadGen | loadTs | loadOpenAt | coalesce | expired | hit | loadEpoch
  | claimFails =>
      -- the generation is what it was: even, for a call outside of the section
      have heven : scc.windowGen % 2 = 0 := hc.resolve_left Bool.false_ne_true
      exact absurd (heven.symm.trans hodd) Nat.zero_ne_one

/-- A call outside the claimed section that does not claim leaves generation and timestamp
alone. -/
theorem effect_none_of_odd {e₀ : Nat} {scc : Scc} {epoch : Nat} {p : SccPc F}
    (h : PcOk e₀ scc epoch p) (hodd : scc.windowGen % 2 = 1) (hp : p.claimed = false) :
    (sccStep scc epoch p).1.windowGen = scc.windowGen
      ∧ (sccStep scc epoch p).1.currentTs = scc.currentTs := by
  have hstep := sccStep_cases scc epoch p
  generalize (sccStep scc epoch p).1 = scc', (sccStep scc epoch p).2 = o at hstep ⊢
  cases hstep with
  | claim nowNs gen newTs hgen =>
      -- the generation that a compare-exchange takes is even
      have heven := h.1
      omega
  | count | spin | loadGen | loadTs | loadOpenAt | coalesce | expired | hit | loadEpoch
  | claimFails => exact ⟨rfl, rfl⟩
  | rateZero | rateTotal | rateHits | loadP99 | storeW | storeTs | storeOpenAt | publish =>
      cases hp

/-- After a step the timestamp is still at most the epoch, and at least `e₀` once a window was
published. -/
theorem ts_sccStep {e₀ : Nat} {scc : Scc} {epoch : Nat} {p : SccPc F} (h : PcOk e₀ scc epoch p)
    (hts : scc.currentTs ≤ epoch) (hwin : 2 ≤ scc.windowGen → e₀ ≤ scc.currentTs) :
    (sccStep scc epoch p).1.currentTs ≤ epoch
      ∧ (2 ≤ (sccStep scc epoch p).1.windowGen → e₀ ≤ (sccStep scc epoch p).1.currentTs) := by
  have hstep := sccStep_cases scc epoch p
  generalize (sccStep scc epoch p).1 = scc', (sccStep scc epoch p).2 = o at hstep ⊢
  cases hstep with
  | claim nowNs gen newTs hgen =>
      refine ⟨hts, fun h2 => hwin ?_⟩
      have heven := h.1
      dsimp only at h2
      omega
  | storeTs => exact ⟨h.2.2.2.1, fun _ => h.2.2.1⟩
  | publish nowNs gen newTs =>
      obtain ⟨-, -, hge, -, hcur⟩ := h
      exact ⟨hts, fun _ => by dsimp only; omega⟩
  | count | spin | loadGen | loadTs | loadOpenAt | coalesce | expired | hit | loadEpoch
  | claimFails | rateZero | rateTotal | rateHits | loadP99 | storeW | storeOpenAt =>
      exact ⟨hts, hwin⟩

theorem sccInv_run {e₀ : Nat} {s : SccState F T} (h : SccInv e₀ s) {t : T} {p : SccPc F}
    (hp : s.pc t = some p) (opened : List Window) :
    SccInv e₀ { s with
      scc := (sccStep s.scc s.epoch p).1
      pc := Function.update s.pc t (sccStep s.scc s.epoch p).2
      opened := opened } := by
  have hok := h.ok t p hp
  obtain ⟨hts, hpos⟩ := ts_sccStep hok h.ts_le h.ts_ge
  refine ⟨h.epoch_ge, hts, hpos, fun hodd => ?_, fun u v q r hu hv hq hr => ?_,
    fun u q hu => ?_⟩
  · -- the opener is the moving call, or another one that keeps its program point
    by_cases hown : p.claimed = true ∨ s.scc.windowGen % 2 = 0
    · obtain ⟨q, hq, hc⟩ := claimed_next hok hodd hown
      exact ⟨t, q, by simp [hq], hc⟩
    · simp only [not_or, Bool.not_eq_true] at hown
      obtain ⟨u, q, hu, hc⟩ := h.opener (by omega)
      have hne : u ≠ t := by
        rintro rfl
        rw [hp, Option.some.injEq] at hu
        rw [hu, hc] at hown
        exact absurd hown.1 (by simp)
      exact ⟨u, q, by simpa [Function.update_of_ne hne] using hu, hc⟩
  · -- a call that newly claims found the generation even, so nobody else was inside
    have key : ∀ w r', w ≠ t → s.pc w = some r' → r'.claimed = true → ∀ q',
        (sccStep s.scc s.epoch p).2 = some q' → q'.claimed = true → False := by
      intro w r' hw hr' hc q' hq' hc'
      rcases claimed_sccStep hq' hc' with hcl | ⟨nowNs, gen, newTs, rfl, hgen⟩
      · exact hw (h.unique w t r' p hr' hp hc hcl)
      · have := (h.ok w r' hr').odd hc
        have := hok.1
        omega
    rcases pc_update_cases hu with ⟨rfl, hu'⟩ | ⟨hut, hu'⟩ <;>
      rcases pc_update_cases hv with ⟨rfl, hv'⟩ | ⟨hvt, hv'⟩
    · rfl
    · exact (key v r hvt hv' hr q hu' hq).elim
    · exact (key u q hut hu' hq r hv' hr).elim
    · exact h.unique u v q r hu' hv' hq hr
  · -- the moving call by its own step, the others by what it leaves alone
    rcases pc_update_cases hu with ⟨rfl, hu'⟩ | ⟨hut, hu'⟩
    · exact pcOk_sccStep hok h.ts_le h.epoch_ge h.ts_ge hu'
    · refine pcOk_of_effect (h.ok u q hu') (sccStep_effect hok) (fun hc => ?_)
      exact effect_none_of_odd hok ((h.ok u q hu').odd hc) (h.alone hp hu' hut hc)

/-- **The step lemma of the coordinator.** -/
theorem sccInv_step {e₀ : Nat} {s s' : SccState F T} {a : SccAction T} (h : SccInv e₀ s)
    (hs : step s a = some s') : SccInv e₀ s' := by
  rcases step_cases hs with ⟨t, nowNs, -, hidle, rfl⟩ | ⟨t, p, -, hp, rfl⟩ | ⟨k, v, rfl, -⟩
  · refine ⟨h.epoch_ge, h.ts_le, h.ts_ge, fun hodd => ?_, fun u v q r hu hv hq hr => ?_,
      fun u q hu => ?_⟩
    · -- a call that starts is not the opener
      obtain ⟨u, q, hu, hc⟩ := h.opener hodd
      have hne : u ≠ t := by rintro rfl; rw [hidle] at hu; cases hu
      exact ⟨u, q, by simpa [Function.update_of_ne hne] using hu, hc⟩
    · rcases pc_update_cases hu with ⟨rfl, hu'⟩ | ⟨-, hu'⟩
      · cases hu'; cases hq
      · rcases pc_update_cases hv with ⟨rfl, hv'⟩ | ⟨-, hv'⟩
        · cases hv'; cases hr
        · exact h.unique u v q r hu' hv' hq hr
    · rcases pc_update_cases hu with ⟨rfl, hu'⟩ | ⟨-, hu'⟩
      · cases hu'; trivial
      · exact h.ok u q hu'
  · exact sccInv_run h hp _
  · refine ⟨le_trans h.epoch_ge (Nat.le_add_right _ _),
      le_trans h.ts_le (Nat.le_add_right _ _), h.ts_ge, h.opener, h.unique, fun u q hu => ?_⟩
    refine pcOk_of_effect (pcOk_epoch (h.ok u q hu) (Nat.le_add_right _ k)) (.none rfl rfl) ?_
    exact fun _ => ⟨rfl, rfl⟩

theorem sccInv_of_run {epoch : Nat} {s : SccState F T}
    {tr : List (Trans (SccState F T) (SccAction T))} (h : Run step (init F T epoch) tr s) :
    SccInv epoch s :=
  h.invariant (sccInv_init le_rfl) (fun _ _ _ hI hs => sccInv_step hI hs)

end SccState

end Pacer.Atomic
