import Pacer.Reclaimer.Thread
import Pacer.Control.Settling

set_option autoImplicit false

/-! # The C++ controller

The controller of a thread over token periods: some operations that find no token, then one that
does. The closing operation folds the sample of the period into the average and every operation
selects the mode. Over the rationals this is the Rust controller with periods for windows
(`controllers_agree`), since a selection that is repeated changes nothing.

The sample of `w` writes and `s` reads is `s / (w + s + 1)`, below the read fraction
`s / (w + s)` by as much as the period is short. The mode settles at the tier of the read fraction
exactly where the sample exceeds the same outer thresholds (`tracks_readFraction_iff`).
-/

namespace Pacer.Reclaimer

open Machine

/-! ## The selectors are the same -/

section

variable {F : Type} [F64 F]

theorem pacerSelectMode_eq (spi : F) : pacerSelectMode spi = selectGcMode spi := rfl

theorem pacerSelectModeHyst_eq (spi : F) (prev : GcMode) :
    pacerSelectModeHyst spi prev = selectGcModeWithHysteresis spi prev := by
  cases prev <;> rfl

namespace ThreadData

/-! ## What an operation does to the controller -/

/-- The controller's part of the thread's data, between two operations and with no token. -/
structure Idle (td : ThreadData F) (ema : F) (mode : GcMode) (w s : Nat) : Prop where
  token : td.token = 0
  spiEma : td.spiEma = ema
  gcMode : td.gcMode = mode
  winWrites : td.winWrites = w
  winSnaps : td.winSnaps = s

omit [F64 F] in
theorem Idle.countOp {td : ThreadData F} {ema : F} {mode : GcMode} {w s : Nat}
    (h : td.Idle ema mode w s) (readOnly : Bool) :
    (td.countOp readOnly).Idle ema mode (w + [readOnly].count false)
      (s + [readOnly].count true) := by
  cases readOnly with
  | true => exact ⟨h.token, h.spiEma, h.gcMode, h.winWrites, congrArg (· + 1) h.winSnaps⟩
  | false => exact ⟨h.token, h.spiEma, h.gcMode, congrArg (· + 1) h.winWrites, h.winSnaps⟩

/-- The selection sets the mode and the hold counter. -/
theorem Idle.select {td : ThreadData F} {ema : F} {mode : GcMode} {w s : Nat}
    (h : td.Idle ema mode w s) :
    td.select.1.Idle ema (selectGcModeWithHysteresis ema mode) w s := by
  have hmode : pacerSelectModeHyst td.spiEma td.gcMode = selectGcModeWithHysteresis ema mode := by
    rw [pacerSelectModeHyst_eq, h.spiEma, h.gcMode]
  unfold ThreadData.select
  rw [hmode]
  dsimp only
  cases selectGcModeWithHysteresis ema mode with
  | conservativeHold =>
      dsimp only
      split <;> exact ⟨h.token, h.spiEma, rfl, h.winWrites, h.winSnaps⟩
  | aggressiveEbr | amortisedFree => exact ⟨h.token, h.spiEma, rfl, h.winWrites, h.winSnaps⟩

/-- An operation that finds no token counts itself and selects the mode. -/
theorem Idle.startOp {td : ThreadData F} {ema : F} {mode : GcMode} {w s : Nat}
    (h : td.Idle ema mode w s) (readOnly : Bool) :
    (td.startOp readOnly).1.Idle ema (selectGcModeWithHysteresis ema mode)
      (w + [readOnly].count false) (s + [readOnly].count true) := by
  have hcount := h.countOp readOnly
  rw [ThreadData.startOp, receive_of_no_token hcount.token]
  exact hcount.select

/-- The sample is folded into the average. -/
theorem Idle.resample {td : ThreadData F} {ema : F} {mode : GcMode} {w s : Nat}
    (h : td.Idle ema mode w s) (hws : 0 < w + s) :
    td.resample.Idle (PacerSystem.nextEma ema w s) mode 0 0 := by
  unfold ThreadData.resample
  rw [h.winWrites, h.winSnaps, h.spiEma]
  dsimp only
  rw [if_pos hws]
  exact ⟨h.token, rfl, h.gcMode, rfl, rfl⟩

/-- An operation that finds the token closes the period. -/
theorem Idle.closing {td : ThreadData F} {ema : F} {mode : GcMode} {w s : Nat}
    (h : td.Idle ema mode w s) (readOnly : Bool) {ema' : F}
    (hema : ema' = PacerSystem.nextEma ema (w + [readOnly].count false)
      (s + [readOnly].count true)) :
    (td.tokenArrives.startOp readOnly).1.Idle ema' (selectGcModeWithHysteresis ema' mode) 0 0 := by
  have hpos : 0 < w + [readOnly].count false + (s + [readOnly].count true) := by
    cases readOnly <;> simp
  have htoken : (td.tokenArrives.countOp readOnly).token ≠ 0 := by
    rw [countOp_token]
    exact Nat.one_ne_zero
  have hcleared : { td.tokenArrives.countOp readOnly with
      token := 0, tokenCount := (td.tokenArrives.countOp readOnly).tokenCount + 1 }.Idle ema mode
        (w + [readOnly].count false) (s + [readOnly].count true) := by
    have hcount := h.countOp readOnly
    cases readOnly <;>
      exact ⟨rfl, hcount.spiEma, hcount.gcMode, hcount.winWrites, hcount.winSnaps⟩
  rw [ThreadData.startOp, receive_of_token htoken, hema]
  exact (hcleared.resample hpos).select

end ThreadData

/-! ## Token periods -/

/-- The operations up to a receipt of the token; the last one finds it. -/
structure TokenPeriod where
  before : List Bool
  closing : Bool

namespace TokenPeriod

def flags (p : TokenPeriod) : List Bool := p.before ++ [p.closing]

def writes (p : TokenPeriod) : Nat := p.flags.count false

def reads (p : TokenPeriod) : Nat := p.flags.count true

theorem pos (p : TokenPeriod) : 0 < p.writes + p.reads := by
  unfold writes reads flags
  rw [List.count_append, List.count_append]
  cases p.closing <;> simp

/-- A period with `w` writes and `s` reads. -/
def ofCounts (w s : Nat) : TokenPeriod :=
  if s = 0 then ⟨List.replicate (w - 1) false, false⟩
  else ⟨List.replicate w false ++ List.replicate (s - 1) true, true⟩

theorem ofCounts_counts {w s : Nat} (hws : 0 < w + s) :
    (ofCounts w s).writes = w ∧ (ofCounts w s).reads = s := by
  unfold ofCounts writes reads flags
  split
  · constructor
    · simp
      omega
    · simp [List.count_replicate]
      omega
  · constructor
    · simp [List.count_replicate]
    · simp [List.count_replicate]
      omega

end TokenPeriod

namespace ThreadData

/-- Operations during which no token arrives. -/
def ops (td : ThreadData F) (flags : List Bool) : ThreadData F :=
  flags.foldl (fun td readOnly => (td.startOp readOnly).1) td

/-- The token arrives before the closing operation. -/
def period (td : ThreadData F) (p : TokenPeriod) : ThreadData F :=
  ((td.ops p.before).tokenArrives.startOp p.closing).1

/-- The controller during a period: the average of the last receipt, and a mode that selecting
again does not change once an operation has selected it. -/
theorem Idle.ops {td : ThreadData F} {ema : F} {mode : GcMode} {w s : Nat}
    (h : td.Idle ema mode w s) (flags : List Bool) :
    ∃ mode', (td.ops flags).Idle ema mode' (w + flags.count false) (s + flags.count true)
      ∧ (selectGcModeWithHysteresis ema mode = mode → mode' = mode) := by
  induction flags generalizing td mode w s with
  | nil => exact ⟨mode, h, fun _ => rfl⟩
  | cons readOnly flags ih =>
      obtain ⟨mode', hidle, hsame⟩ := ih (h.startOp readOnly)
      refine ⟨mode', ?_, fun hmode => ?_⟩
      · rw [show readOnly :: flags = [readOnly] ++ flags from rfl, List.count_append,
          List.count_append, ← Nat.add_assoc, ← Nat.add_assoc]
        exact hidle
      · rw [hmode] at hsame
        exact hsame hmode

/-- **One period**: the average takes in the sample, and the closing operation selects by it. -/
theorem Idle.period {td : ThreadData F} {ema : F} {mode : GcMode} (h : td.Idle ema mode 0 0)
    (p : TokenPeriod) {ema' : F} (hema : ema' = PacerSystem.nextEma ema p.writes p.reads) :
    ∃ prev, (td.period p).Idle ema' (selectGcModeWithHysteresis ema' prev) 0 0
      ∧ (selectGcModeWithHysteresis ema mode = mode → prev = mode) := by
  obtain ⟨prev, hops, hsame⟩ := h.ops p.before
  refine ⟨prev, hops.closing p.closing ?_, hsame⟩
  rw [hema, TokenPeriod.writes, TokenPeriod.reads, TokenPeriod.flags, List.count_append,
    List.count_append, Nat.zero_add, Nat.zero_add]

end ThreadData

end

/-! ## The controllers agree -/

namespace ThreadData

/-- One token period after the other. -/
def periods {F : Type} [F64 F] (td : ThreadData F) (ps : List TokenPeriod) : ThreadData F :=
  ps.foldl period td

/-- Before the first operation of the period `p`. A thread that has the token already, as the
first of the ring has it at the start and one alone in its ring always, closes it at once. -/
structure Begins {F : Type} [F64 F] (td : ThreadData F) (ema : F) (mode : GcMode)
    (p : TokenPeriod) : Prop where
  token : td.token = 0 ∨ p.before = []
  spiEma : td.spiEma = ema
  gcMode : td.gcMode = mode
  winWrites : td.winWrites = 0
  winSnaps : td.winSnaps = 0

/-- Any thread as the constructor leaves it, if its first operation finds the token. -/
theorem begins_new (tid : Nat) (closing : Bool) :
    (new tid : ThreadData ℚ).Begins 0 .aggressiveEbr ⟨[], closing⟩ :=
  ⟨Or.inr rfl, rfl, rfl, rfl, rfl⟩

/-- A token that is there already need not arrive. -/
theorem Begins.idle {F : Type} [F64 F] {td : ThreadData F} {ema : F} {mode : GcMode}
    {p : TokenPeriod} (h : td.Begins ema mode p) :
    ∃ td' : ThreadData F, td'.Idle ema mode 0 0 ∧ td'.period p = td.period p := by
  rcases h.token with htoken | hbefore
  · exact ⟨td, ⟨htoken, h.spiEma, h.gcMode, h.winWrites, h.winSnaps⟩, rfl⟩
  · refine ⟨{ td with token := 0 }, ⟨rfl, h.spiEma, h.gcMode, h.winWrites, h.winSnaps⟩, ?_⟩
    rw [period, period, hbefore]
    rfl

/-- The counts of a period as those of a window. -/
def windowOf (p : TokenPeriod) : Nat × Nat := (p.writes, p.reads)

/-- From a mode that is selected already the controller runs as the Rust one. -/
theorem Idle.periods {td : ThreadData ℚ} {ema : ℚ} {mode : GcMode} (h : td.Idle ema mode 0 0)
    (hmode : selectGcModeWithHysteresis ema mode = mode) (ps : List TokenPeriod) :
    ∃ ema' mode', PacerSystem.controller ema mode (ps.map windowOf) = (ema', mode')
      ∧ (td.periods ps).Idle ema' mode' 0 0
      ∧ selectGcModeWithHysteresis ema' mode' = mode' := by
  induction ps generalizing td ema mode with
  | nil => exact ⟨ema, mode, rfl, h, hmode⟩
  | cons p ps ih =>
      obtain ⟨prev, hperiod, hsame⟩ := h.period p rfl
      rw [hsame hmode] at hperiod
      exact ih hperiod (select_select _ _)

/-- From any mode the first period selects one, and then the controller runs as the Rust one. -/
theorem Begins.periods_cons {td : ThreadData ℚ} {ema : ℚ} {mode : GcMode} {p : TokenPeriod}
    (h : td.Begins ema mode p) (ps : List TokenPeriod) :
    ∃ prev ema' mode', (selectGcModeWithHysteresis ema mode = mode → prev = mode)
      ∧ PacerSystem.controller ema prev ((p :: ps).map windowOf) = (ema', mode')
      ∧ (td.periods (p :: ps)).Idle ema' mode' 0 0
      ∧ selectGcModeWithHysteresis ema' mode' = mode' := by
  obtain ⟨td', hidle, hperiod⟩ := h.idle
  obtain ⟨prev, hclosed, hsame⟩ := hidle.period p rfl
  rw [hperiod] at hclosed
  obtain ⟨ema', mode', hrest⟩ := hclosed.periods (select_select _ _) ps
  exact ⟨prev, ema', mode', hsame, hrest⟩

/-- **The Rust and the C++ controller agree**: after the closing operation of each token period
and after every later operation before the next receipt, the C++ controller has the average and
the mode that the Rust controller has after as many windows with the same counts, both started
from an average of `0` and `AggressiveEbr`. -/
theorem controllers_agree {P : Type} {td : ThreadData ℚ} {p : TokenPeriod}
    (htd : td.Begins 0 .aggressiveEbr p) (sys : PacerSystem ℚ) {t : ThreadLocalState ℚ P}
    (ht : PacerSystem.AtStart t) (hema : t.spiEma = 0) (hmode : t.gcMode = .aggressiveEbr)
    (ps : List TokenPeriod) (later : List Bool) :
    ∃ sys' t', sys.rounds t ((p :: ps).map windowOf) = some (sys', t')
      ∧ ((td.periods (p :: ps)).ops later).spiEma = t'.spiEma
      ∧ ((td.periods (p :: ps)).ops later).gcMode = t'.gcMode := by
  have hwindows : ∀ x ∈ (p :: ps).map windowOf, 0 < x.1 + x.2 := by
    intro x hx
    obtain ⟨q, -, rfl⟩ := List.mem_map.mp hx
    exact q.pos
  obtain ⟨sys', t', hrun, -, hrust⟩ := PacerSystem.rounds_spec sys ht hwindows
  have hstart : selectGcModeWithHysteresis (0 : ℚ) .aggressiveEbr = .aggressiveEbr := by
    decide +kernel
  obtain ⟨prev, ema', mode', hfirst, hctl, hidle, hselected⟩ := htd.periods_cons ps
  obtain ⟨mode'', hlater, hsame⟩ := hidle.ops later
  obtain rfl := hsame hselected
  rw [hema, hmode, ← hfirst hstart, hctl, Prod.mk.injEq] at hrust
  exact ⟨sys', t', hrun, hlater.spiEma.trans hrust.1.symm, hlater.gcMode.trans hrust.2.symm⟩

/-- A period of twenty operations, all but the last read-only. -/
def readPeriod : TokenPeriod := ⟨List.replicate 19 true, true⟩

/-- In three periods of reads both controllers leave `AggressiveEbr`. -/
theorem controllers_agree_reads :
    ∃ sys' t', (PacerSystem.new : PacerSystem ℚ).rounds
        (ThreadLocalState.new 0 : ThreadLocalState ℚ Nat)
        ([⟨[], true⟩, readPeriod, readPeriod, readPeriod].map windowOf) = some (sys', t')
      ∧ (((new 0 : ThreadData ℚ).periods [⟨[], true⟩, readPeriod, readPeriod, readPeriod]).ops
          [false]).spiEma = t'.spiEma
      ∧ (((new 0 : ThreadData ℚ).periods [⟨[], true⟩, readPeriod, readPeriod, readPeriod]).ops
          [false]).gcMode = t'.gcMode
      ∧ t'.gcMode = .amortisedFree := by
  have ht : PacerSystem.AtStart (ThreadLocalState.new 0 : ThreadLocalState ℚ Nat) :=
    ⟨rfl, rfl, by decide⟩
  obtain ⟨sys', t', hrun, hema, hmode⟩ := controllers_agree (begins_new 0 true) PacerSystem.new ht
    rfl rfl [readPeriod, readPeriod, readPeriod] [false]
  refine ⟨sys', t', hrun, hema, hmode, hmode.symm.trans ?_⟩
  decide +kernel

/-! ## The read fraction -/

/-- The fraction of read-only operations. -/
def readFraction (w s : Nat) : ℚ := s / (w + s : Nat)

/-- The sample falls short of the read fraction. -/
theorem winSpi_le_readFraction {w s : Nat} (hws : 0 < w + s) : winSpi w s ≤ readFraction w s := by
  unfold winSpi readFraction
  exact div_le_div_of_nonneg_left (by positivity) (by exact_mod_cast hws)
    (by exact_mod_cast Nat.le_succ _)

/-- The sample exceeds the thresholds that the read fraction exceeds on the way up. -/
def SampleReaches (w s : Nat) : Prop :=
  (7 / 20 < readFraction w s → 7 / 20 < winSpi w s)
    ∧ (13 / 20 < readFraction w s → 13 / 20 < winSpi w s)

/-- Then the sample is outside of the dead-bands as well, in the same tier. -/
theorem SampleReaches.sample {w s : Nat} (h : SampleReaches w s) (hws : 0 < w + s)
    (hf : OutsideDeadBands (readFraction w s)) :
    OutsideDeadBands (winSpi w s)
      ∧ selectGcMode (winSpi w s) = selectGcMode (readFraction w s) := by
  have hle := winSpi_le_readFraction hws
  rcases hf with hf | ⟨hlo, hhi⟩ | hf
  · have hlow := hle.trans_lt hf
    exact ⟨Or.inl hlow, by rw [selectGcMode_low hlow, selectGcMode_low hf]⟩
  · have hmid := h.1 hlo
    exact ⟨Or.inr (Or.inl ⟨hmid, hle.trans_lt hhi⟩),
      by rw [selectGcMode_mid hmid (hle.trans_lt hhi), selectGcMode_mid hlo hhi]⟩
  · have hhigh := h.2 hf
    exact ⟨Or.inr (Or.inr hhigh), by rw [selectGcMode_high hhigh, selectGcMode_high hf]⟩

/-- A sample that falls short of a threshold allows a lower tier than the read fraction. -/
theorem SampleReaches.of_le {w s : Nat} (hf : OutsideDeadBands (readFraction w s))
    (h : selectGcMode (readFraction w s) ≤ modeBand.lo (winSpi w s)) : SampleReaches w s := by
  constructor
  · intro hlo
    by_contra hle
    have hsample : modeBand.lo (winSpi w s) = .aggressiveEbr := tierAbove_eq_bot (not_lt.mp hle)
    rw [hsample] at h
    rcases hf with hf | ⟨-, hhi⟩ | hf
    · linarith
    · rw [selectGcMode_mid hlo hhi] at h
      exact absurd h (by decide)
    · rw [selectGcMode_high hf] at h
      exact absurd h (by decide)
  · intro hhi
    by_contra hle
    have hsample : modeBand.lo (winSpi w s) ≤ .amortisedFree := tierAbove_le_mid (not_lt.mp hle)
    rw [selectGcMode_high hhi] at h
    exact absurd (h.trans hsample) (by decide)

/-! ## Periods with constant counts -/

/-- From below the average stays below the sample, and the mode below what the sample allows. -/
theorem controller_le {spi ema : ℚ} {mode : GcMode} {windows : List (Nat × Nat)}
    (hspi : ∀ x ∈ windows, winSpi x.1 x.2 = spi) (hema : ema ≤ spi)
    (hmode : mode ≤ modeBand.lo spi) :
    (PacerSystem.controller ema mode windows).2 ≤ modeBand.lo spi := by
  induction windows generalizing ema mode with
  | nil => exact hmode
  | cons x windows ih =>
      obtain ⟨w, s⟩ := x
      have hstep : PacerSystem.nextEma ema w s ≤ spi := by
        rw [PacerSystem.nextEma_eq, hspi (w, s) List.mem_cons_self]
        exact Ema.step_le spiEmaAlpha_pos.le spiEmaAlpha_le_one hema le_rfl
      have hlo : modeBand.lo (PacerSystem.nextEma ema w s) ≤ modeBand.lo spi :=
        tierAbove_anti le_rfl le_rfl hstep
      refine ih (fun y hy => hspi y (List.mem_cons_of_mem _ hy)) hstep ?_
      rw [selectGcModeWithHysteresis_eq]
      exact max_le hlo ((min_le_left _ _).trans hmode)

/-- In the first `k` periods, all with the same counts. -/
theorem winSpi_of_mem {w s : Nat} {ps : Nat → TokenPeriod}
    (hps : ∀ k, (ps k).writes = w ∧ (ps k).reads = s) (k : Nat) :
    ∀ x ∈ ((List.range k).map ps).map windowOf, winSpi x.1 x.2 = winSpi w s := by
  intro x hx
  obtain ⟨p, hp, rfl⟩ := List.mem_map.mp hx
  obtain ⟨i, -, rfl⟩ := List.mem_map.mp hp
  rw [windowOf, (hps i).1, (hps i).2]

/-- For a thread all of whose token periods have `w` writes and `s` reads, in any order, the mode
is from some receipt on always that of the read fraction, whatever the average in `[0, 1]` and the
mode at the start. -/
def Tracks (w s : Nat) : Prop :=
  ∀ ps : Nat → TokenPeriod, (∀ k, (ps k).writes = w ∧ (ps k).reads = s) →
    ∀ (td : ThreadData ℚ) (ema : ℚ) (mode : GcMode), td.Begins ema mode (ps 0) →
      0 ≤ ema ∧ ema ≤ 1 → ∃ receipts, ∀ k, receipts ≤ k → ∀ later, later <+: (ps k).before →
        ((td.periods ((List.range k).map ps)).ops later).gcMode
          = pacerSelectMode (readFraction w s)

/-- A thread that starts as the constructor leaves it stays below what the sample allows. -/
theorem Tracks.sampleReaches {w s : Nat} (h : Tracks w s) (hws : 0 < w + s)
    (hf : OutsideDeadBands (readFraction w s)) : SampleReaches w s := by
  have hstart : (new 1 : ThreadData ℚ).Idle 0 .aggressiveEbr 0 0 := ⟨rfl, rfl, rfl, rfl, rfl⟩
  have hcounts := fun _ : Nat => TokenPeriod.ofCounts_counts hws
  obtain ⟨k, hk⟩ := h (fun _ => TokenPeriod.ofCounts w s) hcounts (new 1) 0 .aggressiveEbr
    ⟨Or.inl rfl, rfl, rfl, rfl, rfl⟩ ⟨le_rfl, zero_le_one⟩
  have hmode := hk k le_rfl [] List.nil_prefix
  obtain ⟨ema', mode', hctl, hidle, -⟩ := hstart.periods (by decide +kernel)
    ((List.range k).map fun _ => TokenPeriod.ofCounts w s)
  have hbelow : GcMode.aggressiveEbr ≤ modeBand.lo (winSpi w s) := Nat.zero_le _
  have hle := controller_le (winSpi_of_mem hcounts k) (winSpi_nonneg w s) hbelow
  rw [hctl] at hle
  refine SampleReaches.of_le hf ?_
  rw [← pacerSelectMode_eq, ← hmode]
  exact hidle.gcMode ▸ hle

/-- Once the average has settled at the sample every operation selects the tier of the sample. -/
theorem SampleReaches.tracks {w s : Nat} (h : SampleReaches w s) (hws : 0 < w + s)
    (hf : OutsideDeadBands (readFraction w s)) : Tracks w s := by
  intro ps hps td ema mode hbegins hema
  obtain ⟨hout, htier⟩ := h.sample hws hf
  refine ⟨settleRounds (winSpi w s), fun k hk later _ => ?_⟩
  have hpos := settleRounds_pos hout
  obtain ⟨n, rfl⟩ : ∃ n, k = n + 1 := ⟨k - 1, by omega⟩
  have hcons : (List.range (n + 1)).map ps = ps 0 :: ((List.range n).map Nat.succ).map ps := by
    rw [List.range_succ_eq_map, List.map_cons]
  obtain ⟨prev, ema', mode', -, hctl, hrun, hselected⟩ :=
    hbegins.periods_cons (((List.range n).map Nat.succ).map ps)
  rw [← hcons] at hctl hrun
  obtain ⟨mode'', hlater, hsame⟩ := hrun.ops later
  obtain ⟨prev', hlast⟩ := PacerSystem.controller_const ema prev (winSpi_of_mem hps (n + 1))
    (by rw [hcons]; exact List.cons_ne_nil _ _)
  rw [List.length_map, List.length_map, List.length_range] at hlast
  obtain ⟨hnear, hmode⟩ := hout.near (abs_ema_sub_lt hema hout
    ⟨winSpi_nonneg w s, (winSpi_lt_one w s).le⟩ hk)
  calc ((td.periods ((List.range (n + 1)).map ps)).ops later).gcMode
      = mode' := hlater.gcMode.trans (hsame hselected)
    _ = (PacerSystem.controller ema prev (((List.range (n + 1)).map ps).map windowOf)).2 := by
      rw [hctl]
    _ = selectGcMode (winSpi w s) := by rw [hlast, hnear.select, hmode]
    _ = pacerSelectMode (readFraction w s) := htier

/-- **When the controller tracks the read fraction**: exactly when the sample of a period exceeds
the thresholds that the read fraction exceeds. -/
theorem tracks_readFraction_iff {w s : Nat} (hws : 0 < w + s)
    (hf : OutsideDeadBands (readFraction w s)) : Tracks w s ↔ SampleReaches w s :=
  ⟨fun h => h.sampleReaches hws hf, fun h => h.tracks hws hf⟩

theorem tracks_readFraction_iff_three_reads : Tracks 0 3 ↔ SampleReaches 0 3 :=
  tracks_readFraction_iff (by decide) (Or.inr (Or.inr (by norm_num [readFraction])))

/-- A thread alone in the ring that only reads: its samples are `1/2`. -/
theorem reads_alone (k : Nat) :
    ((new 0 : ThreadData ℚ).periods (List.replicate k ⟨[], true⟩)).gcMode ≤ .amortisedFree := by
  cases k with
  | zero => decide
  | succ k =>
      obtain ⟨prev, ema', mode', hfirst, hctl, hidle, -⟩ :=
        (begins_new 0 true).periods_cons (List.replicate k ⟨[], true⟩)
      have hsamples : ∀ x ∈ (List.replicate (k + 1) (⟨[], true⟩ : TokenPeriod)).map windowOf,
          winSpi x.1 x.2 = 1 / 2 := by
        intro x hx
        rw [List.map_replicate] at hx
        rw [List.eq_of_mem_replicate hx]
        norm_num [winSpi, windowOf, TokenPeriod.writes, TokenPeriod.reads, TokenPeriod.flags]
      have hprev : prev ≤ modeBand.lo (1 / 2) := by
        rw [hfirst (by decide +kernel)]
        exact Nat.zero_le _
      have hema : (0 : ℚ) ≤ 1 / 2 := by norm_num
      have hle := controller_le hsamples hema hprev
      rw [List.replicate_succ, hctl] at hle
      rw [List.replicate_succ, hidle.gcMode]
      exact hle.trans (tierAbove_le_mid (by norm_num))

theorem only_reads_not_tracked :
    OutsideDeadBands (readFraction 0 1)
      ∧ pacerSelectMode (readFraction 0 1) = .conservativeHold ∧ ¬ Tracks 0 1
      ∧ ∀ k, ((new 0 : ThreadData ℚ).periods (List.replicate k ⟨[], true⟩)).gcMode
          ≠ .conservativeHold := by
  have hf : OutsideDeadBands (readFraction 0 1) := Or.inr (Or.inr (by norm_num [readFraction]))
  refine ⟨hf, selectGcMode_high (by norm_num [readFraction]), fun h => ?_, fun k hk => ?_⟩
  · have hreaches := (h.sampleReaches (by decide) hf).2 (by norm_num [readFraction])
    norm_num [winSpi] at hreaches
  · have hle := reads_alone k
    rw [hk] at hle
    exact absurd hle (by decide)

end ThreadData

end Pacer.Reclaimer
