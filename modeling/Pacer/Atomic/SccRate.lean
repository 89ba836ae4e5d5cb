import Pacer.Atomic.SccClaim
import Pacer.Atomic.SccMonotone
import Pacer.Atomic.SccWindow

set_option autoImplicit false

/-! # Windows are rate-limited

`published` lists the windows of a run in the order in which they were published, each with the
fields its opener left behind. `InForce v s` says what the last of them, `v`, means for the calls
of `s`: a call that has seen the current generation has seen the open time and the width of `v`,
so a call that goes on to claim that generation has compared its clock with both.

The width itself stays between its two bounds whatever the counters are, because `compute_w`
clamps the factor.
-/

namespace Pacer

/-- A width between the two constants of the coordinator. -/
def WidthOk (w : Nat) : Prop := sccMinWindowNs ≤ w ∧ w ≤ sccMaxWindowNs

/-- Every hit rate and every latency give a width between the two constants. -/
theorem widthOk_computeW (hitRate : ℚ) (p99Ns : Nat) : WidthOk (Scc.computeW ℚ hitRate p99Ns) := by
  unfold Scc.computeW
  dsimp only
  generalize hx : hitRate * F64.lit (6 / 10) + _ = x
  have hlo : 0 ≤ F64.clamp x (0 : ℚ) 1 := F64.le_clamp zero_le_one
  have hhi : F64.clamp x (0 : ℚ) 1 ≤ 1 := F64.clamp_le zero_le_one
  simp only [F64.lit_rat, F64.ofU64_rat]
  constructor
  · apply F64.le_toU64 (by decide)
    simp only [sccMinWindowNs, sccMaxWindowNs]
    push_cast
    linarith
  · apply F64.toU64_le
    simp only [sccMinWindowNs, sccMaxWindowNs]
    push_cast
    linarith

end Pacer

namespace Pacer.Atomic

open Machine

/-! ## What a call knows of the last window -/

section

variable {F : Type} [F64 F]

/-- What a call knows of the last published window `v`. While the generation it saw is the
current one it has the open time of `v`, and past the test of the coalescing path its clock has
reached the end of `v`. In the claimed section the clock stays there. -/
def PcAfter (v scc : Scc) : SccPc F → Prop
  | .loadW _ gen _ openedAt => gen = scc.windowGen → openedAt = v.windowOpenAt
  | .loadEpoch nowNs gen | .claim nowNs gen _ =>
      gen = scc.windowGen → v.windowOpenAt + v.adaptiveWNs ≤ nowNs
  | .rateTotal nowNs _ _ | .rateHits nowNs _ _ _ | .loadP99 nowNs _ _ _ | .storeW nowNs _ _ _
  | .storeTs nowNs _ _ | .storeOpenAt nowNs _ _ => v.windowOpenAt + v.adaptiveWNs ≤ nowNs
  | .publish nowNs _ _ =>
      v.windowOpenAt + v.adaptiveWNs ≤ nowNs ∧ scc.windowOpenAt = nowNs
  | _ => True

omit [F64 F] in
/-- The clock of an opener has reached the end of `v`. -/
theorem PcAfter.le_openAt {v scc : Scc} {p : SccPc F} {w : Window} (h : PcAfter v scc p)
    (hw : p.window = some w) : v.windowOpenAt + v.adaptiveWNs ≤ w.openAt := by
  cases p <;> simp only [SccPc.window, Option.some.injEq, reduceCtorEq] at hw <;> subst hw
  case publish => exact h.1
  all_goals exact h

omit [F64 F] in
/-- What a call knows survives the step of another one. -/
theorem pcAfter_of_effect {e₀ : Nat} {v scc scc' : Scc} {epoch : Nat} {q : SccPc F}
    (h : PcAfter v scc q) (hok : PcOk e₀ scc epoch q) (hle : scc.windowGen ≤ scc'.windowGen)
    (hq : q.claimed = true → scc'.windowOpenAt = scc.windowOpenAt) : PcAfter v scc' q := by
  cases q with
  | loadW nowNs gen ts openedAt =>
      have hgen := hok.2.1
      exact fun heq => h (by omega)
  | loadEpoch nowNs gen =>
      have hgen := hok.2
      exact fun heq => h (by omega)
  | claim nowNs gen newTs =>
      have hgen := hok.2.1
      exact fun heq => h (by omega)
  | publish nowNs gen newTs => exact ⟨h.1, (hq rfl).trans h.2⟩
  | _ => exact h

/-- The moving call learns what it knows of `v` by its two loads and its comparison. -/
theorem pcAfter_sccStep {e₀ : Nat} {v scc : Scc} {epoch : Nat} {p q : SccPc F}
    (h : PcAfter v scc p) (hok : PcOk e₀ scc epoch p) (hgen : 2 ≤ scc.windowGen)
    (hwidth : 0 < v.adaptiveWNs)
    (heven : scc.windowGen % 2 = 0 →
      scc.windowOpenAt = v.windowOpenAt ∧ scc.adaptiveWNs = v.adaptiveWNs)
    (hq : (sccStep scc epoch p).2 = some q) : PcAfter v (sccStep scc epoch p).1 q := by
  have hstep := sccStep_cases scc epoch p
  rw [hq] at hstep
  generalize (sccStep scc epoch p).1 = scc' at hstep ⊢
  cases hstep with
  | count | spin | loadGen | loadTs | coalesce | claimFails => trivial
  | loadOpenAt nowNs gen ts =>
      have hparity := hok.1
      exact fun heq => (heven (heq ▸ hparity)).1
  | expired nowNs gen ts openedAt hc =>
      intro (heq : gen = scc.windowGen)
      -- the width is that of `v`, and the test on the first window is not the one that failed
      have hparity := hok.1
      obtain ⟨-, hw⟩ := heven (heq ▸ hparity)
      have hopen := h heq
      have hne : gen ≠ 0 := by omega
      have hlate : ¬ nowNs - openedAt < scc.adaptiveWNs := fun hlt => hc ⟨hne, hlt⟩
      omega
  | claim nowNs gen newTs heq => exact h heq.symm
  | storeOpenAt => exact ⟨h, rfl⟩
  | loadEpoch | rateZero | rateTotal | rateHits | loadP99 | storeW | storeTs => exact h

/-- Only the opener that has computed a width stores it. -/
theorem adaptiveWNs_sccStep (scc : Scc) (epoch : Nat) (p : SccPc F) :
    (∃ nowNs gen newTs newW, p = .storeW nowNs gen newTs newW
        ∧ (sccStep scc epoch p).1.adaptiveWNs = newW)
      ∨ (sccStep scc epoch p).1.adaptiveWNs = scc.adaptiveWNs := by
  have hstep := sccStep_cases scc epoch p
  generalize (sccStep scc epoch p).1 = scc', (sccStep scc epoch p).2 = o at hstep ⊢
  cases hstep with
  | storeW nowNs gen newTs newW => exact Or.inl ⟨_, _, _, _, rfl, rfl⟩
  | _ => exact Or.inr rfl

/-- A width about to be stored comes from `compute_w`. -/
theorem sccStep_eq_storeW {scc : Scc} {epoch nowNs gen newTs newW : Nat} {p : SccPc F}
    (h : (sccStep scc epoch p).2 = some (.storeW nowNs gen newTs newW)) :
    ∃ hitRate, newW = Scc.computeW F hitRate scc.p99Ns := by
  have hstep := sccStep_cases scc epoch p
  rw [h] at hstep
  generalize (sccStep scc epoch p).1 = scc' at hstep
  cases hstep with
  | loadP99 _ _ _ hitRate => exact ⟨hitRate, rfl⟩

end

namespace SccState

variable {F T : Type} [F64 F] [DecidableEq T]

/-! ## The published windows -/

/-- The fields that the transition publishes. -/
def publication (x : Trans (SccState F T) (SccAction T)) : Option Scc :=
  match x.act with
  | .run t =>
      match x.pre.pc t with
      | some (.publish _ _ _) => some x.post.scc
      | _ => none
  | _ => none

/-- The windows published in a run, in order. -/
def published (tr : List (Trans (SccState F T) (SccAction T))) : List Scc :=
  tr.filterMap publication

/-- In the transition `x` the caller with the clock reading `nowNs` stores `current_ts`. -/
def Refreshes (x : Trans (SccState F T) (SccAction T)) (nowNs : Nat) : Prop :=
  ∃ t gen newTs, x.act = .run t ∧ x.pre.pc t = some (.storeTs nowNs gen newTs)

section

omit [F64 F] [DecidableEq T]

theorem published_snoc (tr : List (Trans (SccState F T) (SccAction T)))
    (x : Trans (SccState F T) (SccAction T)) :
    published (tr ++ [x]) = published tr ++ (publication x).toList := by
  rw [published, List.filterMap_append]
  cases h : publication x <;> simp [published, h]

/-- A transition publishes the fields it leaves behind. -/
theorem publication_eq_post {x : Trans (SccState F T) (SccAction T)} {v : Scc}
    (h : publication x = some v) : v = x.post.scc ∧ ∃ t nowNs gen newTs,
      x.act = .run t ∧ x.pre.pc t = some (.publish nowNs gen newTs) := by
  unfold publication at h
  split at h
  · rename_i t hact
    split at h
    · rename_i nowNs gen newTs hp
      exact ⟨(Option.some.inj h).symm, t, nowNs, gen, newTs, hact, hp⟩
    · cases h
  · cases h

theorem publication_run {s s' : SccState F T} {t : T} {nowNs gen newTs : Nat}
    (hp : s.pc t = some (.publish nowNs gen newTs)) :
    publication ⟨s, .run t, s'⟩ = some s'.scc := by
  simp only [publication, hp]

end

/-- `current_ts` changes only by a store of an opener. -/
theorem refreshes_of_ne {x : Trans (SccState F T) (SccAction T)}
    (hs : step x.pre x.act = some x.post) (hne : x.post.scc.currentTs ≠ x.pre.scc.currentTs) :
    ∃ nowNs, Refreshes x nowNs := by
  rcases step_cases hs with ⟨t, nowNs, -, -, heq⟩ | ⟨t, p, hact, hp, heq⟩ | ⟨k, v, heq, -⟩
  · rw [heq] at hne
    exact absurd rfl hne
  · rw [heq] at hne
    cases hst : p.stores .currentTs with
    | none => exact absurd (load_sccStep_of_not_stores hst) hne
    | some gen =>
        cases p <;> simp only [SccPc.stores, reduceCtorEq] at hst
        case storeTs nowNs gen' newTs => exact ⟨nowNs, t, gen', newTs, hact, hp⟩
  · rw [heq] at hne
    exact absurd rfl hne

/-! ## The window in force -/

/-- `v` is the window published last: its fields are the current ones until the next opener
has claimed the generation, and every call stands to it as `PcAfter` says. -/
structure InForce (e₀ : Nat) (v : Scc) (s : SccState F T) : Prop where
  inv : SccInv e₀ s
  gen : 2 ≤ s.scc.windowGen
  width : 0 < v.adaptiveWNs
  even : s.scc.windowGen % 2 = 0 →
    s.scc.windowOpenAt = v.windowOpenAt ∧ s.scc.adaptiveWNs = v.adaptiveWNs
  calls : ∀ t p, s.pc t = some p → PcAfter v s.scc p

/-- A window is in force as soon as it is published: no other call has seen its generation. -/
theorem inForce_publish {e₀ : Nat} {s : SccState F T} (h : SccInv e₀ s) {t : T}
    {nowNs gen newTs : Nat} (hp : s.pc t = some (.publish nowNs gen newTs))
    (hinv : SccInv e₀ (s.afterRun t (.publish nowNs gen newTs)))
    (hwidth : 0 < s.scc.adaptiveWNs) :
    InForce e₀ (s.afterRun t (.publish nowNs gen newTs)).scc
      (s.afterRun t (.publish nowNs gen newTs)) := by
  have hgen := (h.ok t _ hp).2.1
  refine ⟨hinv, ?_, hwidth, fun _ => ⟨rfl, rfl⟩, fun u q hu => ?_⟩
  · show 2 ≤ gen + 2
    omega
  · rcases pc_update_cases hu with ⟨-, hu'⟩ | ⟨hut, hu'⟩
    · cases hu'
    · have hq : q.claimed = false := h.alone hu' hp (Ne.symm hut) rfl
      have hok := h.ok u q hu'
      -- the generation of another call is older than the published one
      have hold : ∀ g, g ≤ s.scc.windowGen → g ≠ gen + 2 := fun g hg => by omega
      cases q with
      | loadW => exact fun heq => absurd heq (hold _ hok.2.1)
      | loadEpoch => exact fun heq => absurd heq (hold _ hok.2)
      | claim => exact fun heq => absurd heq (hold _ hok.2.1)
      | count | loadGen | loadTs | loadOpenAt | hit => trivial
      | rateTotal | rateHits | loadP99 | storeW | storeTs | storeOpenAt | publish => cases hq

/-- The window stays in force under every step that does not publish. -/
theorem inForce_step {e₀ : Nat} {v : Scc} {s s' : SccState F T} {a : SccAction T}
    (h : InForce e₀ v s) (hs : step s a = some s') (hno : publication ⟨s, a, s'⟩ = none) :
    InForce e₀ v s' := by
  have hinv := sccInv_step h.inv hs
  rcases step_cases hs with ⟨t, nowNs, -, hidle, rfl⟩ | ⟨t, p, rfl, hp, rfl⟩ | ⟨k, w, rfl, -⟩
  · refine ⟨hinv, h.gen, h.width, h.even, fun u q hu => ?_⟩
    rcases pc_update_cases hu with ⟨-, hu'⟩ | ⟨-, hu'⟩
    · cases hu'; trivial
    · exact h.calls u q hu'
  · have hok := h.inv.ok t p hp
    have hle := (sccStep_effect hok).mono.2
    refine ⟨hinv, le_trans h.gen hle, h.width, fun heven => ?_, fun u q hu => ?_⟩
    · -- without a publication an even generation is the old one, and its fields are untouched
      have hgen : (sccStep s.scc s.epoch p).1.windowGen = s.scc.windowGen := by
        rcases windowGen_sccStep s.scc s.epoch p with ⟨_, _, _, rfl⟩ | ⟨w, hopen, hgen, -⟩ |
          ⟨-, hgen⟩
        · rw [publication_run hp] at hno
          cases hno
        · obtain ⟨-, rfl⟩ := opens_spec hopen
          have hparity : (sccStep s.scc s.epoch (.claim w.openAt w.gen w.ts)).1.windowGen % 2 = 0 :=
            heven
          have := hok.1
          omega
        · exact hgen
      have heven' : s.scc.windowGen % 2 = 0 := hgen ▸ heven
      have hfree : p.claimed = false := by
        by_contra hc
        have := hok.odd (by simpa using hc)
        omega
      obtain ⟨hopenAt, hw⟩ := h.even heven'
      exact ⟨(sccStep_fields hfree).2.1.trans hopenAt, (sccStep_fields hfree).2.2.trans hw⟩
    · rcases pc_update_cases hu with ⟨rfl, hu'⟩ | ⟨hut, hu'⟩
      · exact pcAfter_sccStep (h.calls u p hp) hok h.gen h.width h.even hu'
      · refine pcAfter_of_effect (h.calls u q hu') (h.inv.ok u q hu') hle (fun hc => ?_)
        exact (sccStep_fields (h.inv.alone hp hu' hut hc)).2.1
  · refine ⟨hinv, h.gen, h.width, h.even, fun u q hu => ?_⟩
    exact pcAfter_of_effect (h.calls u q hu) (h.inv.ok u q hu) le_rfl (fun _ => rfl)

/-! ## The width -/

/-- The width, and every width about to be stored, is between the bounds. -/
structure WidthInv (s : SccState F T) : Prop where
  width : WidthOk s.scc.adaptiveWNs
  storing : ∀ t nowNs gen newTs newW,
    s.pc t = some (.storeW nowNs gen newTs newW) → WidthOk newW

omit [F64 F] [DecidableEq T] in
theorem widthInv_init (epoch : Nat) : WidthInv (init F T epoch) where
  width := by
    show WidthOk sccMinWindowNs
    unfold WidthOk
    decide
  storing := by simp [init]

theorem widthInv_step {s s' : SccState ℚ T} {a : SccAction T} (h : WidthInv s)
    (hs : step s a = some s') : WidthInv s' := by
  rcases step_cases hs with ⟨t, nowNs, -, -, rfl⟩ | ⟨t, p, -, hp, rfl⟩ | ⟨k, v, rfl, -⟩
  · refine ⟨h.width, fun u _ _ _ _ hu => ?_⟩
    rcases pc_update_cases hu with ⟨-, hu'⟩ | ⟨-, hu'⟩
    · cases hu'
    · exact h.storing u _ _ _ _ hu'
  · refine ⟨?_, fun u _ _ _ _ hu => ?_⟩
    · rcases adaptiveWNs_sccStep s.scc s.epoch p with ⟨_, _, _, newW, rfl, hw⟩ | hw
      · show WidthOk (sccStep s.scc s.epoch _).1.adaptiveWNs
        rw [hw]
        exact h.storing t _ _ _ newW hp
      · show WidthOk (sccStep s.scc s.epoch p).1.adaptiveWNs
        rw [hw]
        exact h.width
    · rcases pc_update_cases hu with ⟨-, hu'⟩ | ⟨-, hu'⟩
      · obtain ⟨hitRate, rfl⟩ := sccStep_eq_storeW hu'
        exact widthOk_computeW hitRate _
      · exact h.storing u _ _ _ _ hu'
  · exact ⟨h.width, h.storing⟩

/-! ## Runs -/

/-- Every window opens after the end of the one before it, and the last one is in force. -/
structure RateInv (e₀ : Nat) (tr : List (Trans (SccState ℚ T) (SccAction T)))
    (s : SccState ℚ T) : Prop where
  inv : SccInv e₀ s
  width : WidthInv s
  widths : ∀ v ∈ published tr, WidthOk v.adaptiveWNs
  chain : (published tr).IsChain (fun v w => v.windowOpenAt + v.adaptiveWNs ≤ w.windowOpenAt)
  last : ∀ v ∈ (published tr).getLast?, InForce e₀ v s

omit [DecidableEq T] in
theorem rateInv_init (epoch : Nat) : RateInv epoch [] (init ℚ T epoch) where
  inv := sccInv_init le_rfl
  width := widthInv_init epoch
  widths := by simp [published]
  chain := List.isChain_nil
  last := by simp [published]

theorem rateInv_step {e₀ : Nat} {tr : List (Trans (SccState ℚ T) (SccAction T))}
    {s s' : SccState ℚ T} {a : SccAction T} (h : RateInv e₀ tr s) (hs : step s a = some s') :
    RateInv e₀ (tr ++ [⟨s, a, s'⟩]) s' := by
  have hinv := sccInv_step h.inv hs
  have hwidth := widthInv_step h.width hs
  cases hpub : publication ⟨s, a, s'⟩ with
  | none =>
      have hsame : published (tr ++ [⟨s, a, s'⟩]) = published tr := by
        rw [published_snoc, hpub]
        exact List.append_nil _
      refine ⟨hinv, hwidth, hsame ▸ h.widths, hsame ▸ h.chain, fun v hv => ?_⟩
      rw [hsame] at hv
      exact inForce_step (h.last v hv) hs hpub
  | some w =>
      have hsnoc : published (tr ++ [⟨s, a, s'⟩]) = published tr ++ [w] := by
        rw [published_snoc, hpub]
        rfl
      obtain ⟨rfl, t, nowNs, gen, newTs, hact, hp⟩ := publication_eq_post hpub
      dsimp only at hact hp hsnoc
      subst hact
      -- the state left by the publishing store
      have hs' : s' = s.afterRun t (.publish nowNs gen newTs) := by
        simp only [step, hp] at hs
        exact (Option.some.inj hs).symm
      refine ⟨hinv, hwidth, fun v hv => ?_, ?_, fun v hv => ?_⟩
      · rw [hsnoc] at hv
        rcases List.mem_append.mp hv with hv | hv
        · exact h.widths v hv
        · rw [List.mem_singleton.mp hv]
          exact hwidth.width
      · rw [hsnoc, List.isChain_append]
        refine ⟨h.chain, List.isChain_singleton _, fun v hv w hw => ?_⟩
        rw [List.head?_cons, Option.mem_some_iff] at hw
        obtain ⟨hlate, hopen⟩ := (h.last v hv).calls t _ hp
        rw [← hw, hs']
        show _ ≤ s.scc.windowOpenAt
        rw [hopen]
        exact hlate
      · rw [hsnoc, List.getLast?_concat, Option.mem_some_iff] at hv
        subst hv
        have hpos : 0 < s.scc.adaptiveWNs := lt_of_lt_of_le (by decide) h.width.width.1
        rw [hs'] at hinv ⊢
        exact inForce_publish h.inv hp hinv hpos

theorem rateInv_of_run {epoch : Nat} {s : SccState ℚ T}
    {tr : List (Trans (SccState ℚ T) (SccAction T))} (h : Run step (init ℚ T epoch) tr s) :
    RateInv epoch tr s := by
  induction h with
  | nil => exact rateInv_init epoch
  | snoc _ hs ih => exact rateInv_step ih hs

/-- Numbers of which each is at least `d` above its predecessor are so far apart pairwise. -/
theorem pairwise_of_apart {d : Nat} {l : List Nat} (h : l.IsChain (fun a b => a + d ≤ b)) :
    l.Pairwise (fun a b => a + d ≤ b) := by
  have : Trans (fun a b : Nat => a + d ≤ b) (fun a b => a + d ≤ b) (fun a b => a + d ≤ b) :=
    ⟨fun hab hbc => by omega⟩
  exact List.isChain_iff_pairwise.mp h

omit [DecidableEq T] in
/-- Consecutive windows are apart by the smallest width. -/
theorem RateInv.apart {e₀ : Nat} {tr : List (Trans (SccState ℚ T) (SccAction T))}
    {s : SccState ℚ T} (h : RateInv e₀ tr s) :
    ((published tr).map Scc.windowOpenAt).IsChain (fun a b => a + sccMinWindowNs ≤ b) := by
  rw [List.isChain_map]
  refine h.chain.imp_of_mem_imp (fun v w hv _ hvw => ?_)
  have := (h.widths v hv).1
  omega

omit [DecidableEq T] in
/-- The clock of an opener is past the end of the last window, and so it is apart from all of
them. -/
theorem RateInv.opener_late {e₀ : Nat} {tr : List (Trans (SccState ℚ T) (SccAction T))}
    {s : SccState ℚ T} (h : RateInv e₀ tr s) {t : T} {p : SccPc ℚ} {w : Window}
    (hp : s.pc t = some p) (hw : p.window = some w) :
    (∀ v ∈ (published tr).getLast?, v.windowOpenAt + v.adaptiveWNs ≤ w.openAt)
      ∧ ∀ v ∈ published tr, v.windowOpenAt + sccMinWindowNs ≤ w.openAt := by
  have hlast : ∀ v ∈ (published tr).getLast?, v.windowOpenAt + v.adaptiveWNs ≤ w.openAt :=
    fun v hv => ((h.last v hv).calls t p hp).le_openAt hw
  have hchain : ((published tr).map Scc.windowOpenAt ++ [w.openAt]).IsChain
      (fun a b => a + sccMinWindowNs ≤ b) := by
    refine List.isChain_append.mpr ⟨h.apart, List.isChain_singleton _, fun a ha b hb => ?_⟩
    rw [List.getLast?_map, Option.mem_def, Option.map_eq_some_iff] at ha
    obtain ⟨v, hv, rfl⟩ := ha
    rw [List.head?_cons, Option.mem_some_iff] at hb
    have := (h.widths v (List.mem_of_getLast? hv)).1
    have := hlast v hv
    omega
  refine ⟨hlast, fun v hv => ?_⟩
  have hpair := (List.pairwise_append.mp (pairwise_of_apart hchain)).2.2
  exact hpair _ (List.mem_map_of_mem hv) _ (List.mem_singleton_self _)

/-- **Windows are rate-limited.** In every run the width stays between its two constants, every
window opens no earlier than the previous one plus the width in force since then, so that open
times grow by the smallest width at least, and whoever opens a window or refreshes `current_ts`
has a clock reading that much later than every window before. -/
theorem windows_rate_limited {epoch : Nat} {s : SccState ℚ T}
    {tr : List (Trans (SccState ℚ T) (SccAction T))} (h : Run step (init ℚ T epoch) tr s) :
    (∀ r ∈ visited (init ℚ T epoch) tr, WidthOk r.scc.adaptiveWNs)
      ∧ (published tr).IsChain (fun v w => v.windowOpenAt + v.adaptiveWNs ≤ w.windowOpenAt)
      ∧ (∀ v ∈ (published tr).getLast?, s.scc.windowGen % 2 = 0 →
          s.scc.windowOpenAt = v.windowOpenAt ∧ s.scc.adaptiveWNs = v.adaptiveWNs)
      ∧ (published tr).Pairwise (fun v w => v.windowOpenAt + sccMinWindowNs ≤ w.windowOpenAt)
      ∧ (∀ t p w, s.pc t = some p → p.window = some w →
          (∀ v ∈ (published tr).getLast?, v.windowOpenAt + v.adaptiveWNs ≤ w.openAt)
          ∧ ∀ v ∈ published tr, v.windowOpenAt + sccMinWindowNs ≤ w.openAt)
      ∧ ∀ tr₁ x tr₂, tr = tr₁ ++ x :: tr₂ →
          (x.post.scc.currentTs ≠ x.pre.scc.currentTs → ∃ nowNs, Refreshes x nowNs)
          ∧ ∀ nowNs, Refreshes x nowNs →
              ∀ v ∈ published tr₁, v.windowOpenAt + sccMinWindowNs ≤ nowNs := by
  have hI := rateInv_of_run h
  refine ⟨fun r hr => ?_, hI.chain, fun v hv => (hI.last v hv).even,
    List.pairwise_map.mp (pairwise_of_apart hI.apart), fun t p w hp hw => hI.opener_late hp hw,
    ?_⟩
  · obtain ⟨tr₁, _, _, h₁⟩ := h.prefix_of_visited hr
    exact (rateInv_of_run h₁).width.width
  · rintro tr₁ x tr₂ rfl
    obtain ⟨h₁, hs, -⟩ := h.split
    refine ⟨refreshes_of_ne hs, ?_⟩
    rintro nowNs ⟨t, gen, newTs, -, hp⟩
    exact ((rateInv_of_run h₁).opener_late (w := ⟨gen, newTs, nowNs⟩) hp rfl).2

theorem windows_rate_limited_two :
    ∃ tr s, Run step (init ℚ (Fin 2) 1) tr s
      ∧ (published tr).map Scc.windowOpenAt = [0, 10000000]
      ∧ (published tr).IsChain (fun v w => v.windowOpenAt + v.adaptiveWNs ≤ w.windowOpenAt) := by
  obtain ⟨tr, s, hr, hs⟩ := exists_run_of_replay step (init ℚ (Fin 2) 1) (twoWindows 0 1)
    (fun tr _ => (published tr).map Scc.windowOpenAt == [0, 10000000]) (by decide +kernel)
  exact ⟨tr, s, hr, by simpa using hs, (windows_rate_limited hr).2.1⟩

end SccState

end Pacer.Atomic
