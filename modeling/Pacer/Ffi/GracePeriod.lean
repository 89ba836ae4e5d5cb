import Pacer.Ffi.Steps

set_option autoImplicit false

/-! # The grace period of the FFI path

A tree call announces nothing, and the epoch of the EBR strategies advances with every
operation of any thread. So whether a drain frees a node behind a running call is decided by
what the limbo bag holds when the bound of the drain is fixed; under PACER the bound is always
`u64::MAX`, which leaves the first nodes of the bag whatever they are. From then on the drain
reaches nothing new, and calls that begin later do not matter.
-/

namespace Pacer.Ffi

open Machine Atomic

section

variable {F T P : Type} [F64 F] [DecidableEq T]

/-! ## The property and the condition -/

/-- The time at which the tree call began that the thread is in. -/
def Pc.callStart : Pc F → Option Nat
  | .inTree _ start => some start
  | _ => none

/-- The thread is in a tree call that began before `time`. -/
def InCallBefore (s : State F T P) (u : T) (time : Nat) : Prop :=
  ∃ start ∈ (s.pc u).callStart, start < time

instance (s : State F T P) (u : T) (time : Nat) : Decidable (InCallBefore s u time) :=
  inferInstanceAs (Decidable (∃ start ∈ (s.pc u).callStart, start < time))

/-- The bound and the remaining rounds of a drain in progress. -/
def Pc.drain : Pc F → Option (Nat × Nat)
  | .gc (.drain safeTs k) | .ebrDrain safeTs k => some (safeTs, k)
  | _ => none

/-- The entry that the drain of thread `t` frees in its next round. -/
def freedNext (s : State F T P) (t : T) : Option (Nat × Retired (Node P)) :=
  (s.pc t).drain.bind fun d => nextFreed (s.tls t) d.1 d.2

/-- The transition in which a drain of thread `t` frees `e`. -/
def Frees (x : Trans (State F T P) (Action T P)) (t : T) (e : Nat × Retired (Node P)) : Prop :=
  x.act = .run t ∧ freedNext x.pre t = some e

/-- A node freed in the transition was retired before every call that runs on another thread
began. -/
def FreesClear (x : Trans (State F T P) (Action T P)) : Prop :=
  ∀ t e, Frees x t e → ∀ u, u ≠ t → ¬ InCallBefore x.pre u e.2.ptr.retiredAt

/-- The bound and the budget of the drain that the next instruction of thread `t` begins. -/
def beginsDrain (strat : Strat) (s : State F T P) (t : T) : Option (Nat × Nat) :=
  match s.pc t with
  | .gc (.scanSlot n i _) =>
      if i < n then none
      else some (u64Max, tickBudget (s.tls t).gcMode (s.tls t).holdTicks)
  | .ebrLoad => some (s.ebrEpoch - 2, ebrBudget strat)
  | _ => none

/-- A drain begins only when every node within its reach was retired before every call that
runs on another thread began. -/
def DrainsClear (strat : Strat) (x : Trans (State F T P) (Action T P)) : Prop :=
  ∀ t safeTs k, x.act = .run t → beginsDrain strat x.pre t = some (safeTs, k) →
    ∀ e, (x.pre.tls t).limboBag.Reaches safeTs k e →
      ∀ u, u ≠ t → ¬ InCallBefore x.pre u e.2.ptr.retiredAt

/-! ## What holds in every state -/

structure TailInv (s : State F T P) : Prop where
  slots : ∀ i, s.sys.announce.slots i = 0
  gc : ∀ t q, s.pc t = .gc q → GcPc q
  past : ∀ t e, e ∈ (s.tls t).limboBag.q → e.2.ptr.retiredAt < s.clock

omit [DecidableEq T] in
theorem tailInv_init (p : Prepopulated F P) : TailInv (init T p) where
  slots := p.slots
  gc := fun t q h => by cases h
  past := fun t e h => by cases h

section

omit [F64 F]

theorem afterGc_eq_gc {q q' : SysPc F} (h : afterGc q = .gc q') : q = q' := by
  cases q <;> cases h <;> rfl

theorem callStart_afterGc (q : SysPc F) : (afterGc q).callStart = none := by
  cases q <;> rfl

theorem drain_afterGc {q : SysPc F} {safeTs k : Nat}
    (h : (afterGc q).drain = some (safeTs, k)) : q = .drain safeTs k := by
  cases q <;> cases h
  rfl

end

omit [DecidableEq T] in
/-- One step of a thread keeps the table clear, its own tail a tail, and its bag in the
past. -/
theorem LocalStep.tail {strat : Strat} {s : State F T P} {t : T} {a : Action T P}
    {sys : PacerSystem F} {tls : ThreadLocalState F (Node P)} {q : Pc F} {clock : Nat}
    (h : LocalStep strat s t a sys tls q clock) (hs : TailInv s) :
    (∀ i, sys.announce.slots i = 0) ∧ (∀ r, q = .gc r → GcPc r) ∧ s.clock ≤ clock
      ∧ ∀ e ∈ tls.limboBag.q, e.2.ptr.retiredAt < clock := by
  have hpast := hs.past t
  cases h with
  | register tid q hpc hq =>
      refine ⟨hs.slots, fun r hr => ?_, le_rfl, fun e he => by cases he⟩
      rcases hq with rfl | rfl <;> cases hr
  | call c tls hpc hbag =>
      exact ⟨hs.slots, by rintro r ⟨⟩, le_rfl, fun e he => hpast e (hbag ▸ he)⟩
  | enter c hpc =>
      exact ⟨hs.slots, by rintro r ⟨⟩, Nat.le_succ _, fun e he => (hpast e he).trans_le
        (Nat.le_succ _)⟩
  | retire c start birthTs ptr hpc =>
      -- the new node is stamped with the clock, which then moves on
      refine ⟨hs.slots, by rintro r ⟨⟩, Nat.le_succ _, fun e he => ?_⟩
      rcases List.mem_append.mp he with he | he
      · exact (hpast e he).trans_le (Nat.le_succ _)
      · rw [List.mem_singleton.mp he]
        exact Nat.lt_succ_self _
  | ret c start q hpc hq =>
      refine ⟨hs.slots, fun r hr => ?_, le_rfl, hpast⟩
      rcases hq with rfl | rfl | rfl <;> cases hr
      trivial
  | gc q₀ sys tls q' hpc hr =>
      obtain ⟨hann, hgc, hbag, -⟩ := threadStep_gc hr hs.slots (hs.gc t q₀ hpc)
      refine ⟨by rw [hann]; exact hs.slots, fun r hr => ?_, le_rfl,
        fun e he => hpast e (hbag e he)⟩
      rw [← afterGc_eq_gc hr]
      exact hgc
  | ebrLoad hpc => exact ⟨hs.slots, by rintro r ⟨⟩, le_rfl, hpast⟩
  | ebrPop safeTs k e hpc hf =>
      exact ⟨hs.slots, by rintro r ⟨⟩, le_rfl, fun e he => hpast e (List.mem_of_mem_tail he)⟩
  | ebrRest q hpc hq =>
      refine ⟨hs.slots, fun r hr => ?_, le_rfl, hpast⟩
      rcases hq with rfl | rfl | ⟨e, rfl⟩ <;> cases hr

theorem tailInv_step {strat : Strat} {s s' : State F T P} {a : Action T P} (hs : TailInv s)
    (h : step strat s a = some s') : TailInv s' := by
  obtain ⟨t, sys, tls, q, clock, hl, hb⟩ := step_cases h
  obtain ⟨hslots, hgc, hclock, hpast⟩ := hl.tail hs
  refine ⟨fun i => by rw [hb.sys]; exact hslots i, fun u r hr => ?_, fun u e he => ?_⟩
  · rw [hb.pc] at hr
    by_cases hu : u = t
    · subst hu
      exact hgc r (by simpa using hr)
    · exact hs.gc u r (by simpa [hu] using hr)
  · rw [hb.clock]
    rw [hb.tls] at he
    by_cases hu : u = t
    · subst hu
      exact hpast e (by simpa using he)
    · exact (hs.past u e (by simpa [hu] using he)).trans_le hclock

theorem tailInv_run {strat : Strat} {p : Prepopulated F P} {s : State F T P}
    {tr : List (Trans (State F T P) (Action T P))} (h : Run (step strat) (init T p) tr s) :
    TailInv s :=
  h.invariant (tailInv_init p) (fun _ _ _ hI hs => tailInv_step hI hs)

/-! ## Running drains -/

omit [DecidableEq T] in
/-- A drain in progress after a step has just begun, or the step has freed a node. -/
theorem LocalStep.drain {strat : Strat} {s : State F T P} {t : T} {a : Action T P}
    {sys : PacerSystem F} {tls : ThreadLocalState F (Node P)} {q : Pc F} {clock : Nat}
    (h : LocalStep strat s t a sys tls q clock) (hs : TailInv s) {safeTs k : Nat}
    (hq : q.drain = some (safeTs, k)) :
    (a = .run t ∧ beginsDrain strat s t = some (safeTs, k)
        ∧ tls.limboBag = (s.tls t).limboBag)
      ∨ ∃ k₀ e, (s.pc t).drain = some (safeTs, k₀)
        ∧ nextFreed (s.tls t) safeTs k₀ = some e
        ∧ tls.limboBag = ⟨(s.tls t).limboBag.q.tail⟩ ∧ k = k₀ - 1 := by
  cases h with
  | register tid q hpc hr => rcases hr with rfl | rfl <;> cases hq
  | call | enter | retire => cases hq
  | ret c start q hpc hr => rcases hr with rfl | rfl | rfl <;> cases hq
  | gc q₀ sys tls q' hpc hr =>
      obtain ⟨-, -, -, hdrain⟩ := threadStep_gc hr hs.slots (hs.gc t q₀ hpc)
      cases hdrain safeTs k (drain_afterGc hq) with
      | start n i hq₀ hi hbag hts hk =>
          refine Or.inl ⟨rfl, ?_, hbag⟩
          rw [hq₀] at hpc
          simp only [beginsDrain, hpc, if_neg hi, hts, hk]
      | pop k₀ e hq₀ hf hbag hk =>
          refine Or.inr ⟨k₀, e, ?_, hf, hbag, hk⟩
          rw [hpc, hq₀]
          rfl
  | ebrLoad hpc =>
      cases hq
      exact Or.inl ⟨rfl, by simp only [beginsDrain, hpc], rfl⟩
  | ebrPop safeTs' k' e hpc hf =>
      cases hq
      exact Or.inr ⟨k', e, by rw [hpc]; rfl, hf, rfl, rfl⟩
  | ebrRest q hpc hr => rcases hr with rfl | rfl | ⟨e, rfl⟩ <;> cases hq

/-- A call that is running after a step was running before, or began after everything in the
bags was retired. -/
theorem inCallBefore_step {strat : Strat} {s s' : State F T P} {a : Action T P}
    (h : step strat s a = some s') {u : T} {time : Nat} (hu : InCallBefore s' u time) :
    InCallBefore s u time ∨ s.clock < time := by
  obtain ⟨t, sys, tls, q, clock, hl, hb⟩ := step_cases h
  obtain ⟨start, hpc, hlt⟩ := hu
  rw [hb.pc] at hpc
  by_cases hut : u = t
  case neg => exact Or.inl ⟨start, by simpa [hut] using hpc, hlt⟩
  subst hut
  rw [Function.update_self] at hpc
  cases hl with
  | register tid q _ hq => rcases hq with rfl | rfl <;> cases hpc
  | call => cases hpc
  | enter => cases hpc; exact Or.inr hlt
  | retire c start' _ _ hold => exact Or.inl ⟨start, by rw [hold]; exact hpc, hlt⟩
  | ret _ _ q _ hq => rcases hq with rfl | rfl | rfl <;> cases hpc
  | gc q₀ _ _ q' => rw [callStart_afterGc] at hpc; cases hpc
  | ebrLoad | ebrPop => cases hpc
  | ebrRest q _ hq => rcases hq with rfl | rfl | ⟨e, rfl⟩ <;> cases hpc

/-- What a running drain can still free was retired before every call that runs on another
thread began. -/
structure DrainInv (s : State F T P) : Prop where
  tail : TailInv s
  clear : ∀ t safeTs k e u, (s.pc t).drain = some (safeTs, k) →
    (s.tls t).limboBag.Reaches safeTs k e → u ≠ t → ¬ InCallBefore s u e.2.ptr.retiredAt

theorem mem_of_reaches {b : LimboBag P} {safeTs k : Nat} {e : Nat × Retired P}
    (h : b.Reaches safeTs k e) : e ∈ b.q := by
  obtain ⟨i, -, hget, -⟩ := h
  exact List.mem_of_getElem? hget

/-- What a drain can free after a step it could free before, or the drain begins with this
step and the condition speaks about it. -/
theorem drain_clear_pre {strat : Strat} {s s' : State F T P} {a : Action T P} (h : DrainInv s)
    (hs : step strat s a = some s') (hc : DrainsClear strat ⟨s, a, s'⟩) {t : T}
    {safeTs k : Nat} {e : Nat × Retired (Node P)} (hd : (s'.pc t).drain = some (safeTs, k))
    (he : (s'.tls t).limboBag.Reaches safeTs k e) :
    e ∈ (s.tls t).limboBag.q ∧ ∀ u, u ≠ t → ¬ InCallBefore s u e.2.ptr.retiredAt := by
  obtain ⟨v, sys, tls, q, clock, hl, hb⟩ := step_cases hs
  rw [hb.pc] at hd
  rw [hb.tls] at he
  by_cases hv : t = v
  case neg =>
    rw [Function.update_of_ne hv] at hd he
    exact ⟨mem_of_reaches he, fun u hu => h.clear t safeTs k e u hd he hu⟩
  subst hv
  rw [Function.update_self] at hd he
  rcases hl.drain h.tail hd with ⟨ha, hbegin, hbag⟩ | ⟨k₀, e₀, hd₀, hf, hbag, rfl⟩
  · rw [hbag] at he
    exact ⟨mem_of_reaches he, hc t safeTs k ha hbegin e he⟩
  · rw [hbag] at he
    have he₀ := (reaches_of_nextFreed hf).2 e he
    exact ⟨mem_of_reaches he₀, fun u hu => h.clear t safeTs k₀ e u hd₀ he₀ hu⟩

/-- **The step lemma.** -/
theorem drainInv_step {strat : Strat} {s s' : State F T P} {a : Action T P} (h : DrainInv s)
    (hs : step strat s a = some s') (hc : DrainsClear strat ⟨s, a, s'⟩) : DrainInv s' := by
  refine ⟨tailInv_step h.tail hs, fun t safeTs k e u hd he hu hcall => ?_⟩
  obtain ⟨hmem, hclear⟩ := drain_clear_pre h hs hc hd he
  rcases inCallBefore_step hs hcall with hold | hnew
  · exact hclear u hu hold
  · exact absurd (h.tail.past t e hmem) (by omega)

/-! ## From a drain that begins too early to the free -/

omit [F64 F] in
theorem nextFreed_of_head {t : ThreadLocalState F P} {safeTs k : Nat} {e : Nat × Retired P}
    (hk : 0 < k) (hget : t.limboBag.q[0]? = some e) (hlt : e.1 < safeTs) :
    nextFreed t safeTs k = some e := by
  obtain ⟨k, rfl⟩ := Nat.exists_eq_succ_of_ne_zero (Nat.pos_iff_ne_zero.mp hk)
  cases hq : t.limboBag.q with
  | nil => rw [hq] at hget; cases hget
  | cons e' q =>
      rw [hq] at hget
      cases hget
      simp [nextFreed, hq, hlt]

/-- A round of a drain in progress. -/
theorem step_drain (strat : Strat) {s : State F T P} {t : T} {safeTs k : Nat}
    {e : Nat × Retired (Node P)} (hd : (s.pc t).drain = some (safeTs, k))
    (hf : nextFreed (s.tls t) safeTs k = some e) :
    ∃ s', step strat s (.run t) = some s' ∧ (s'.pc t).drain = some (safeTs, k - 1)
      ∧ (s'.tls t).limboBag.q = (s.tls t).limboBag.q.tail ∧ ∀ u, u ≠ t → s'.pc u = s.pc u := by
  -- the drain of either strategy
  have hpop : s.pc t = .gc (.drain safeTs k) ∨ s.pc t = .ebrDrain safeTs k := by
    unfold Pc.drain at hd
    split at hd
    · rename_i hp
      cases hd
      exact Or.inl hp
    · rename_i hp
      cases hd
      exact Or.inr hp
    · cases hd
  rcases hpop with hp | hp
  · refine ⟨_, by simp only [step, hp, runStep, threadStep, hf, Option.map_some]; rfl, ?_, ?_, ?_⟩
    · simp [afterGc, Pc.drain]
    · simp
    · exact fun u hu => Function.update_of_ne hu _ _
  · refine ⟨_, by simp only [step, hp, runStep, hf]; rfl, ?_, ?_, ?_⟩
    · simp [Pc.drain]
    · simp
    · exact fun u hu => Function.update_of_ne hu _ _

/-- A drain in progress that runs alone frees everything within its reach. -/
theorem exists_free (strat : Strat) {t : T} {safeTs i : Nat} {e : Nat × Retired (Node P)} :
    ∀ {k : Nat} {s : State F T P}, (s.pc t).drain = some (safeTs, k) → i < k →
      (s.tls t).limboBag.q[i]? = some e →
      (∀ j ≤ i, ∀ e', (s.tls t).limboBag.q[j]? = some e' → e'.1 < safeTs) →
      ∃ tr y s', Run (step strat) s (tr ++ [y]) s' ∧ Frees y t e
        ∧ ∀ u, u ≠ t → y.pre.pc u = s.pc u := by
  induction i with
  | zero =>
      intro k s hd hk hget hall
      have hf := nextFreed_of_head hk hget (hall 0 le_rfl e hget)
      obtain ⟨s', hs, -⟩ := step_drain strat hd hf
      exact ⟨[], ⟨s, .run t, s'⟩, s', Run.single hs,
        ⟨rfl, by simp only [freedNext, hd, Option.bind_some, hf]⟩, fun u _ => rfl⟩
  | succ i ih =>
      intro k s hd hk hget hall
      -- the entry before it goes first
      obtain ⟨e₀, h₀⟩ : ∃ e₀, (s.tls t).limboBag.q[0]? = some e₀ := by
        cases hq : (s.tls t).limboBag.q with
        | nil => rw [hq] at hget; cases hget
        | cons e₀ q => exact ⟨e₀, rfl⟩
      have hf := nextFreed_of_head (Nat.zero_lt_of_lt hk) h₀ (hall 0 (Nat.zero_le _) e₀ h₀)
      obtain ⟨s₁, hs, hd₁, hbag, hpc⟩ := step_drain strat hd hf
      have hget₁ : ∀ j, (s₁.tls t).limboBag.q[j]? = (s.tls t).limboBag.q[j + 1]? := by
        intro j
        rw [hbag, List.getElem?_tail]
      obtain ⟨tr, y, s', hrun, hfree, hframe⟩ := ih hd₁ (by omega) (by rw [hget₁]; exact hget)
        (fun j hj e' he' => hall (j + 1) (by omega) e' (by rw [← hget₁]; exact he'))
      exact ⟨⟨s, .run t, s₁⟩ :: tr, y, s', Run.cons hs hrun, hfree,
        fun u hu => (hframe u hu).trans (hpc u hu)⟩

/-- A drain begins with the bound and the budget of `beginsDrain`. -/
theorem step_beginsDrain {strat : Strat} {s s' : State F T P} {t : T} {safeTs k : Nat}
    (hs : TailInv s) (h : step strat s (.run t) = some s')
    (hb : beginsDrain strat s t = some (safeTs, k)) :
    (s'.pc t).drain = some (safeTs, k) ∧ (s'.tls t).limboBag = (s.tls t).limboBag
      ∧ ∀ u, u ≠ t → s'.pc u = s.pc u := by
  unfold beginsDrain at hb
  split at hb
  · rename_i n i min hp
    -- the scan has found no announcement
    have hmin : min = u64Max := hs.gc t _ hp
    split at hb
    · cases hb
    · rename_i hi
      cases hb
      simp only [step, hp, runStep, threadStep, if_neg hi, Option.map_some,
        Option.some.injEq] at h
      subst h
      refine ⟨by simp [afterGc, Pc.drain, hmin], by simp,
        fun u hu => Function.update_of_ne hu _ _⟩
  · rename_i hp
    cases hb
    simp only [step, hp, runStep, Option.some.injEq] at h
    subst h
    exact ⟨by simp [Pc.drain], rfl, fun u hu => Function.update_of_ne hu _ _⟩
  · cases hb

/-- **Grace period of the FFI path.** In a run all of whose drains begin clear of the running
calls, no drain frees a node behind a running call; and a run with a drain that does not begin
so goes on, by steps of the draining thread alone, to free one. -/
theorem freed_after_calls (strat : Strat) (p : Prepopulated F P) :
    (∀ tr s, Run (step strat) (init T p) tr s → (∀ x ∈ tr, DrainsClear strat x) →
        ∀ x ∈ tr, FreesClear x)
      ∧ ∀ tr x s, Run (step strat) (init T p) (tr ++ [x]) s → ¬ DrainsClear strat x →
        ∃ tr' s', Run (step strat) (init T p) (tr ++ [x] ++ tr') s'
          ∧ ¬ ∀ y ∈ tr ++ [x] ++ tr', FreesClear y := by
  constructor
  · intro tr s h hall x hx t e hfree u hu
    obtain ⟨tr₁, ⟨l, rfl⟩, hpre, -⟩ := h.of_mem hx
    have hinv : DrainInv x.pre := hpre.invariant_of (C := DrainsClear strat)
      (fun y hy => hall y (List.mem_append_left _ hy))
      ⟨tailInv_init p, fun t safeTs k e u hd => by cases hd⟩
      (fun _ _ _ hI hs hC => drainInv_step hI hs hC)
    obtain ⟨-, hfree⟩ := hfree
    obtain ⟨⟨safeTs, k⟩, hd, hf⟩ := Option.bind_eq_some_iff.mp hfree
    exact hinv.clear t safeTs k e u hd (reaches_of_nextFreed hf).1 hu
  · -- the drain goes on alone up to the node that the running call may see
    intro tr x s h hnot
    obtain ⟨hpre, hstep, rfl⟩ := Run.snoc_inv h
    simp only [DrainsClear, not_forall, not_not] at hnot
    obtain ⟨t, safeTs, k, hact, hbegin, e, ⟨i, hi, hget, hlow⟩, u, hu, hcall⟩ := hnot
    obtain ⟨hd, hbag, hpc⟩ := step_beginsDrain (tailInv_run hpre) (hact ▸ hstep) hbegin
    rw [← hbag] at hget hlow
    obtain ⟨tr', y, s', hrun, hfree, hframe⟩ := exists_free strat hd hi hget hlow
    refine ⟨tr' ++ [y], s', h.append hrun, fun hall => ?_⟩
    obtain ⟨start, hin, hlt⟩ := hcall
    refine hall y (by simp) t e hfree u hu ⟨start, ?_, hlt⟩
    rw [hframe u hu, hpc u hu]
    exact hin

end

/-! ## A free behind a call

The tree is filled without a retirement. Thread `u` begins an insert; thread `t` begins and ends
a remove that retires a node of the filled tree, and drains: nothing is announced, the node is
the first in the bag, and thread `u` is still inside its call. -/

section

variable {P : Type}

/-- The thread that fills the tree, after `n` inserts that retired nothing. -/
def quiet (P : Type) (n : Nat) : Filling ℚ P :=
  { sys :=
      { globalEpoch := 1 + n / windowSize, approxSpi := 0, deltaSpi := 0, scc := Scc.new,
        announce := ⟨fun _ => 0, 1⟩ }
    t :=
      { winWrites := n % windowSize, winSnaps := 0, opCounter := n, failStreak := 0, spiEma := 0,
        holdTicks := 0, gcMode := .aggressiveEbr, limboBag := LimboBag.new, tid := 0 }
    epoch := 1 + n }

theorem nextEma_zero (w : Nat) : PacerSystem.nextEma (0 : ℚ) w 0 = 0 := by
  show (0 : ℚ) * _ + ((0 : Nat) : ℚ) / _ * _ = 0
  simp

/-- Without snapshots every window boundary advances the epoch. -/
theorem reclaimDiscrete_zero {n : Nat} (hn : n % windowSize = 0) {sys : PacerSystem ℚ}
    {t : ThreadLocalState ℚ P} (hop : t.opCounter = n) (hspi : t.spiEma = 0)
    (hm : t.gcMode = .aggressiveEbr) :
    sys.reclaimDiscrete t
      = some ({ sys with globalEpoch := sys.globalEpoch + 1 }, { t with failStreak := 0 }) := by
  have hmode : selectGcModeWithHysteresis (0 : ℚ) .aggressiveEbr = .aggressiveEbr := by
    decide +kernel
  have hstride : PacerSystem.computeEpochStride (0 : ℚ) = 16 := by decide +kernel
  have hmod : n % 16 = 0 := by
    unfold windowSize at hn
    omega
  cases t
  simp only at hop hspi hm
  subst hop hspi hm
  simp [PacerSystem.reclaimDiscrete, hmode, hstride, PacerSystem.strides, hmod,
    PacerSystem.stepEpoch, PacerSystem.streakAfter]

theorem insertAlone_quiet (P : Type) (n : Nat) :
    insertAlone (quiet P n) [] = some (quiet P (n + 1)) := by
  have hdrain : (quiet P n).sys.drainDiscreteTick (countWrite (quiet P n).t)
      = some (countWrite (quiet P n).t, []) := rfl
  simp only [insertAlone, List.foldl_nil, hdrain]
  by_cases hw : (n + 1) % windowSize = 0
  · -- a window boundary: the sample is zero and the epoch advances
    have hop : (countWrite (quiet P n).t).opCounter % windowSize = 0 := hw
    have hsample : (quiet P n).sys.resampleSpi (countWrite (quiet P n).t)
        = ((quiet P n).sys, { countWrite (quiet P n).t with winWrites := 0 }) := by
      have hema : PacerSystem.nextEma (0 : ℚ) (n % windowSize + 1) 0 = 0 := nextEma_zero _
      simp [PacerSystem.resampleSpi, countWrite, quiet, hema]
    rw [if_pos hop, hsample]
    simp only
    rw [reclaimDiscrete_zero (n := n + 1) hw rfl rfl rfl]
    have hdiv : (n + 1) / windowSize = n / windowSize + 1 := by
      unfold windowSize at hw ⊢
      omega
    simp [quiet, countWrite, hw, hdiv]
    omega
  · have hop : ¬ (countWrite (quiet P n).t).opCounter % windowSize = 0 := hw
    have hdiv : (n + 1) / windowSize = n / windowSize := by
      unfold windowSize at hw ⊢
      omega
    have hmod : (n + 1) % windowSize = n % windowSize + 1 := by
      unfold windowSize at hw ⊢
      omega
    rw [if_neg hop]
    simp [quiet, countWrite, hmod, hdiv]
    omega

theorem foldlM_quiet (P : Type) (m n : Nat) :
    (List.replicate n ([] : List (Nat × P))).foldlM insertAlone (quiet P m)
      = some (quiet P (m + n)) := by
  induction n generalizing m with
  | zero => rfl
  | succ n ih =>
      rw [List.replicate_succ, List.foldlM_cons, insertAlone_quiet]
      show (List.replicate n _).foldlM insertAlone (quiet P (m + 1)) = _
      rw [ih, Nat.add_right_comm, Nat.add_assoc]

/-- The state after filling the tree without a retirement. -/
def quietStart (P : Type) : Prepopulated ℚ P :=
  { sys := (quiet P (keyRange / 2)).sys
    epoch := (quiet P (keyRange / 2)).epoch
    reached := by
      refine ⟨List.replicate (keyRange / 2) [], (quiet P (keyRange / 2)).t,
        List.length_replicate, ?_⟩
      have h := foldlM_quiet P 0 (keyRange / 2)
      rw [Nat.zero_add] at h
      exact h }

end

/-- Thread `t` frees what it retired while thread `u` is inside a call begun before. -/
def freeBehindCall {T : Type} (t u : T) : List (Action T Nat) :=
  [.register t, .register u, .call u .insert, .run u, .call t .remove, .run t,
    .retire t 5 7, .ret t] ++ List.replicate 6 (.run t)

/-- Thread `t` frees the node `7`, retired at `time`, and thread `u` is in a call that began
before `time'`. -/
def freesBehind {T : Type} [DecidableEq T] (t u : T) (time time' : Nat)
    (x : Trans (State ℚ T Nat) (Action T Nat)) : Bool :=
  x.act = .run t ∧ freedNext x.pre t = some (5, .foreign ⟨7, time⟩ abtreeFreeNode)
    ∧ InCallBefore x.pre u time'

theorem freed_behind_call :
    ∃ tr s, Run (step .pacerDiscrete) (init (Fin 2) (quietStart Nat)) tr s
      ∧ ¬ ∀ x ∈ tr, FreesClear x := by
  obtain ⟨tr, s, hrun, hp⟩ := exists_run_of_replay (step .pacerDiscrete)
    (init (Fin 2) (quietStart Nat)) (freeBehindCall 0 1)
    (fun tr _ => tr.any (freesBehind 0 1 2 2))
    (by decide +kernel)
  obtain ⟨x, hx, hfree⟩ := List.any_eq_true.mp hp
  simp only [freesBehind, decide_eq_true_eq] at hfree
  obtain ⟨hact, hfreed, hcall⟩ := hfree
  exact ⟨tr, s, hrun, fun hall => hall x hx 0 _ ⟨hact, hfreed⟩ 1 (by decide) hcall⟩

/-- Thread `t` frees what it retired while thread `u` is inside a call begun afterwards. -/
def freeBeforeCall {T : Type} (t u : T) : List (Action T Nat) :=
  [.register t, .register u, .call t .remove, .run t, .retire t 5 7, .ret t, .call u .insert,
    .run u] ++ List.replicate 6 (.run t)

/-- Thread `u` begins no drain, what thread `t` has in its bag was retired at time `1`, and
thread `u` is in no call begun before. -/
def beginsClear {T : Type} [DecidableEq T] (t u : T)
    (x : Trans (State ℚ T Nat) (Action T Nat)) : Bool :=
  (x.act = .run u → beginsDrain .pacerDiscrete x.pre u = none)
    ∧ (x.pre.tls t).limboBag.q.all (fun e => e.2.ptr.retiredAt = 1) ∧ ¬ InCallBefore x.pre u 1

theorem beginsClear_spec {x : Trans (State ℚ (Fin 2) Nat) (Action (Fin 2) Nat)}
    (h : beginsClear 0 1 x = true) : DrainsClear .pacerDiscrete x := by
  simp only [beginsClear, decide_eq_true_eq, List.all_eq_true] at h
  obtain ⟨hone, hbag, hcall⟩ := h
  intro t safeTs k hact hbegin e he u hu
  match t, u with
  | 0, 0 => exact absurd rfl hu
  | 0, 1 =>
      rw [hbag e (mem_of_reaches he)]
      exact hcall
  | 1, _ =>
      rw [hone hact] at hbegin
      cases hbegin

theorem freed_after_calls_later :
    ∃ tr s, Run (step .pacerDiscrete) (init (Fin 2) (quietStart Nat)) tr s
      ∧ (∃ x ∈ tr, Frees x 0 (5, .foreign ⟨7, 1⟩ abtreeFreeNode) ∧ InCallBefore x.pre 1 3)
      ∧ ∀ x ∈ tr, FreesClear x := by
  obtain ⟨tr, s, hrun, hp⟩ := exists_run_of_replay (step .pacerDiscrete)
    (init (Fin 2) (quietStart Nat)) (freeBeforeCall 0 1)
    (fun tr _ => tr.all (beginsClear 0 1) && tr.any (freesBehind 0 1 1 3)) (by decide +kernel)
  simp only [Bool.and_eq_true, List.all_eq_true, List.any_eq_true, freesBehind,
    decide_eq_true_eq] at hp
  obtain ⟨hall, x, hx, hact, hfreed, hcall⟩ := hp
  exact ⟨tr, s, hrun, ⟨x, hx, ⟨hact, hfreed⟩, hcall⟩,
    (freed_after_calls .pacerDiscrete (quietStart Nat)).1 tr s hrun
      (fun y hy => beginsClear_spec (hall y hy))⟩

end Pacer.Ffi
