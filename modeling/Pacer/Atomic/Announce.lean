import Pacer.Atomic.SnapshotCut

set_option autoImplicit false

/-! # Announced snapshots and running drains

A `post_write` scans the slots once and then drains against the minimum it found. Until a slot
is scanned its snapshot still counts; afterwards it does not, whatever is announced there. So
the entries that matter for a snapshot of thread `t` are those that a `post_write` past the
slot of `t` can still free (`reach`). They only shrink as scan and drain go on, which leaves
two moments at which a held snapshot can lose its protection: when it is announced behind a
scan, and when a scan finds another value in its slot.
-/

namespace Pacer.Atomic

open Machine

section

variable {F P : Type} [F64 F]

/-- The entry is within the reach of the rest of a `post_write`: it stands within the budget
of the drain, and it and all entries before it were born before the minimum so far. -/
def reach (t : ThreadLocalState F P) : SysPc F → Nat × Retired P → Prop
  | .scanSlot _ _ min, e => t.limboBag.Reaches min (tickBudget t.gcMode t.holdTicks) e
  | .drain safeTs k, e => t.limboBag.Reaches safeTs k e
  | _, _ => False

/-- The `post_write` will not load slot `i` any more. -/
def passed (i : Nat) : SysPc F → Prop
  | .scanSlot n j _ => i < j ∨ n ≤ i
  | .drain _ _ => True
  | _ => False

instance (i : Nat) : (p : SysPc F) → Decidable (passed i p)
  | .scanSlot n j _ => inferInstanceAs (Decidable (i < j ∨ n ≤ i))
  | .drain _ _ => isTrue trivial
  | .unregistered | .idle | .panicked | .scc _ _ | .latencyLoad _ _ | .latencyStore _ _ _
  | .announce _ | .release | .prepare | .scanCount | .storeSpi | .storeDelta _ | .advanceLoad _
  | .advanceCas _ _ => isFalse id

omit [F64 F] in
/-- The entry popped in a round is within reach, and so is what the later rounds reach. -/
theorem reaches_of_nextFreed {t : ThreadLocalState F P} {safeTs k : Nat} {e : Nat × Retired P}
    (h : nextFreed t safeTs k = some e) :
    t.limboBag.Reaches safeTs k e
      ∧ ∀ e', (⟨t.limboBag.q.tail⟩ : LimboBag P).Reaches safeTs (k - 1) e' →
        t.limboBag.Reaches safeTs k e' := by
  -- `drain` is this round followed by a `drain` of the tail
  have hdrain : (t.limboBag.drain safeTs k).2
      = e :: ((⟨t.limboBag.q.tail⟩ : LimboBag P).drain safeTs (k - 1)).2 := by
    unfold nextFreed at h
    cases k with
    | zero => cases h
    | succ k =>
        cases hq : t.limboBag.q with
        | nil => rw [hq] at h; cases h
        | cons e' q =>
            rw [hq] at h
            dsimp only at h
            split at h
            · rename_i hlt
              cases h
              simp [LimboBag.drain, LimboBag.drainLoop, hq, hlt]
            · cases h
  refine ⟨LimboBag.mem_drain_iff.mp ?_, fun e' he' => LimboBag.mem_drain_iff.mp ?_⟩
  · rw [hdrain]
    exact List.mem_cons_self
  · rw [hdrain]
    exact List.mem_cons_of_mem _ (LimboBag.mem_drain_iff.mpr he')

/-- **What becomes reachable in a step of a `post_write`**: nothing, except that loading a slot
passes it with the new minimum, and that loading the count passes the slots beyond it. -/
theorem reach_threadStep {sys sys' : PacerSystem F} {t t' : ThreadLocalState F P}
    {p q : SysPc F} {i : Nat} {e : Nat × Retired P}
    (h : threadStep sys t p = some (sys', t', q)) (hq : passed i q) (he : reach t' q e) :
    (passed i p ∧ reach t p e)
      ∨ (p = .scanCount ∧ sys.announce.activeCount ≤ i)
      ∨ (∃ n min, p = .scanSlot n i min ∧ i < n
        ∧ t.limboBag.Reaches (AnnouncementTable.scanMin min (sys.announce.slots i))
          (tickBudget t.gcMode t.holdTicks) e) := by
  cases threadStep_cases h with
  | scanCount =>
      -- the scan starts at slot `0`, so what it has passed is beyond the count
      rcases hq with hq | hq
      · exact absurd hq (Nat.not_lt_zero i)
      · exact Or.inr (Or.inl ⟨rfl, hq⟩)
  | scanSlot n j min hjn =>
      by_cases hij : i = j
      · subst hij
        exact Or.inr (Or.inr ⟨n, min, rfl, hjn, he⟩)
      · -- another slot: the minimum can only fall
        refine Or.inl ⟨?_, he.mono (AnnouncementTable.scanMin_le_left min _)⟩
        rcases hq with hq | hq
        · exact Or.inl (by omega)
        · exact Or.inr hq
  | scanEnd n j min hjn =>
      refine Or.inl ⟨?_, he⟩
      by_cases hij : i < j
      · exact Or.inl hij
      · exact Or.inr (by omega)
  | pop safeTs k e' hf => exact Or.inl ⟨trivial, (reaches_of_nextFreed hf).2 e he⟩
  | drainEnd safeTs k hf =>
      exfalso
      rcases afterDrain_pc t with h | h | h | h <;> rw [h] at hq <;> exact hq
  | storeDelta prevEma =>
      exfalso
      rcases afterResample_pc { t with winWrites := 0, winSnaps := 0 } with h | h | h <;>
        rw [h] at hq <;> exact hq
  | scc | sccReturns | sccEnds | latencyLoad | latencyStore | announce | release | panic | prepare
  | storeSpi | advanceLoad | advanceCas =>
      -- nothing but a `post_write` scans
      exact hq.elim

end

namespace SysState

variable {F T P : Type} [F64 F] [DecidableEq T]

/-- The entry that the transition frees. -/
def freedBy (x : Trans (SysState F T P) (SysAction T P)) : Option (Nat × Retired P) :=
  match x.act with
  | .run u =>
      match x.pre.pc u with
      | .drain safeTs k => nextFreed (x.pre.tls u) safeTs k
      | _ => none
  | _ => none

/-- A snapshot is announced only if every `post_write` that will not see the announcement can
free nothing but older entries. -/
def AnnouncesInTime (x : Trans (SysState F T P) (SysAction T P)) : Prop :=
  ∀ t ts, x.act = .run t → x.pre.pc t = .announce ts →
    ∀ u, passed (x.pre.tls t).tid (x.pre.pc u) →
      ∀ e, reach (x.pre.tls u) (x.pre.pc u) e → e.1 < ts

/-- A scan that finds a held snapshot's slot empty, or taken over by a later snapshot of the
same thread, can free nothing but older entries. -/
def ScansHeld (x : Trans (SysState F T P) (SysAction T P)) : Prop :=
  ∀ u n i min, x.act = .run u → x.pre.pc u = .scanSlot n i min → i < n →
    ∀ t ts, (x.pre.tls t).tid = i → ts ∈ x.pre.held t →
      (x.pre.sys.announce.slots i = 0 ∨ ts < x.pre.sys.announce.slots i) →
      ∀ e, (x.pre.tls u).limboBag.Reaches
        (AnnouncementTable.scanMin min (x.pre.sys.announce.slots i))
        (tickBudget (x.pre.tls u).gcMode (x.pre.tls u).holdTicks) e → e.1 < ts

/-- Registered threads have slots of their own, and only they hold snapshots. -/
structure SlotsInv (s : SysState F T P) : Prop where
  tid_lt : ∀ t, (s.pc t).registered = true → (s.tls t).tid < s.sys.announce.activeCount
  tid_inj : ∀ t u, (s.pc t).registered = true → (s.pc u).registered = true →
    (s.tls t).tid = (s.tls u).tid → t = u
  held : ∀ t ts, ts ∈ s.held t → (s.pc t).registered = true

omit [DecidableEq T] in
theorem slotsInv_init : SlotsInv (init F T P) where
  tid_lt := fun t h => by cases h
  tid_inj := fun t u h => by cases h
  held := fun t ts h => by simp [init] at h

theorem activeCount_step {s s' : SysState F T P} {a : SysAction T P} (h : step s a = some s') :
    s.sys.announce.activeCount ≤ s'.sys.announce.activeCount
      ∧ ∀ t, a = .register t → s.sys.announce.activeCount < s'.sys.announce.activeCount := by
  rcases step_cases h with ⟨t, -, -, rfl⟩ | ⟨t, c, rfl, -, rfl⟩ | ⟨t, sys, tls, q, rfl, hr, rfl⟩
  · exact ⟨Nat.le_succ _, fun _ _ => Nat.lt_succ_self _⟩
  · exact ⟨le_rfl, by simp⟩
  · exact ⟨(threadStep_frame hr).2.2.activeCount.ge, by simp⟩

omit [F64 F] in
theorem start_tid (t : ThreadLocalState F P) (c : SysCall P) : (start t c).1.tid = t.tid := by
  cases c <;> rfl

/-- A registered thread stays registered and keeps its slot. -/
theorem tid_step {s s' : SysState F T P} {a : SysAction T P} (hs : step s a = some s') {t : T}
    (ht : (s.pc t).registered = true) :
    (s'.pc t).registered = true ∧ (s'.tls t).tid = (s.tls t).tid := by
  rcases thread_step_cases hs t with ⟨hp, htls, -⟩ | ⟨-, hp, -⟩ | ⟨c, -, -, hp, htls, -⟩ |
    ⟨-, hr, -⟩
  · exact ⟨by rw [hp]; exact ht, by rw [htls]⟩
  · rw [hp] at ht
    cases ht
  · refine ⟨?_, by rw [htls, start_tid]⟩
    rw [hp]
    cases c <;> rfl
  · exact ⟨(threadStep_frame hr).2.1, (threadStep_frame hr).1⟩

/-- A thread that is registered after a step was registered before, or has just taken the
next free slot. -/
theorem registered_step {s s' : SysState F T P} {a : SysAction T P} (hs : step s a = some s')
    {t : T} (ht : (s'.pc t).registered = true) :
    ((s.pc t).registered = true ∧ (s'.tls t).tid = (s.tls t).tid)
      ∨ (a = .register t ∧ (s'.tls t).tid = s.sys.announce.activeCount) := by
  by_cases hold : (s.pc t).registered = true
  · exact Or.inl ⟨hold, (tid_step hs hold).2⟩
  · rcases thread_step_cases hs t with ⟨hp, -⟩ | ⟨ha, -, -, -, htid⟩ | ⟨c, -, hp, -⟩ | ⟨-, hr, -⟩
    · exact absurd (hp ▸ ht) hold
    · exact Or.inr ⟨ha, htid⟩
    · rw [hp] at hold
      exact absurd rfl hold
    · cases hp : s.pc t with
      | unregistered => rw [hp] at hr; cases hr
      | _ => rw [hp] at hold; exact absurd rfl hold

/-- A held snapshot of the next state was held before or has just been announced. -/
theorem held_step {s s' : SysState F T P} {a : SysAction T P} (hs : step s a = some s') {t : T}
    {ts : Nat} (h : ts ∈ s'.held t) :
    ts ∈ s.held t ∨ (a = .run t ∧ s.pc t = .announce ts) := by
  rcases thread_step_cases hs t with ⟨-, -, hh, -⟩ | ⟨-, -, -, hh, -⟩ | ⟨c, -, -, -, -, hh⟩ |
    ⟨ha, -, hh⟩
  · exact Or.inl (hh ▸ h)
  · exact Or.inl (hh ▸ h)
  · exact Or.inl (hh ▸ h)
  · rw [hh] at h
    unfold heldAfter at h
    split at h
    · rename_i hp _
      rcases List.mem_cons.mp h with rfl | h
      · exact Or.inr ⟨ha, hp⟩
      · exact Or.inl h
    · exact Or.inl (List.mem_of_mem_tail h)
    · exact Or.inl h

theorem registered_of_held_step {s s' : SysState F T P} {a : SysAction T P} (h : SlotsInv s)
    (hs : step s a = some s') {t : T} {ts : Nat} (hts : ts ∈ s'.held t) :
    (s.pc t).registered = true := by
  rcases held_step hs hts with hold | ⟨-, hp⟩
  · exact h.held t ts hold
  · rw [hp]
    rfl

theorem slotsInv_step {s s' : SysState F T P} {a : SysAction T P} (h : SlotsInv s)
    (hs : step s a = some s') : SlotsInv s' := by
  obtain ⟨hcount, hreg⟩ := activeCount_step hs
  refine ⟨fun t ht => ?_, fun t u ht hu heq => ?_, fun t ts hts => ?_⟩
  · rcases registered_step hs ht with ⟨hold, htid⟩ | ⟨ha, htid⟩
    · rw [htid]
      exact lt_of_lt_of_le (h.tid_lt t hold) hcount
    · rw [htid]
      exact hreg t ha
  · rcases registered_step hs ht with ⟨hold, htid⟩ | ⟨ha, htid⟩ <;>
      rcases registered_step hs hu with ⟨hold', htid'⟩ | ⟨ha', htid'⟩
    · exact h.tid_inj t u hold hold' (by rw [← htid, heq, htid'])
    · have := h.tid_lt t hold
      omega
    · have := h.tid_lt u hold'
      omega
    · rw [ha] at ha'
      exact SysAction.register.inj ha'
  · exact (tid_step hs (registered_of_held_step h hs hts)).1

/-- No `post_write` past the slot of a thread can free an entry at or above a snapshot that
the thread holds. -/
structure HeldSafe (s : SysState F T P) : Prop where
  slots : SlotsInv s
  safe : ∀ t ts u e, ts ∈ s.held t → passed (s.tls t).tid (s.pc u) →
    reach (s.tls u) (s.pc u) e → e.1 < ts

omit [DecidableEq T] in
theorem heldSafe_init : HeldSafe (init F T P) where
  slots := slotsInv_init
  safe := fun t ts u e h => by simp [init] at h

/-- **The step lemma.** -/
theorem heldSafe_step {s s' : SysState F T P} {a : SysAction T P} (h : HeldSafe s)
    (hs : step s a = some s') (hann : AnnouncesInTime ⟨s, a, s'⟩) (hscan : ScansHeld ⟨s, a, s'⟩) :
    HeldSafe s' := by
  refine ⟨slotsInv_step h.slots hs, fun t ts u e hts hpass he => ?_⟩
  -- `t` was registered before the step and has kept its slot
  have hreg := registered_of_held_step h.slots hs hts
  rw [(tid_step hs hreg).2] at hpass
  rcases thread_step_cases hs u with ⟨hp, htls, -⟩ | ⟨-, -, hp, -⟩ | ⟨c, -, -, hp, -⟩ |
    ⟨ha, hr, hh⟩
  · -- another thread moves: only its announcement can matter
    rw [hp] at hpass he
    rw [htls] at he
    rcases held_step hs hts with hold | ⟨ha, hpt⟩
    · exact h.safe t ts u e hold hpass he
    · exact hann t ts ha hpt u hpass e he
  · rcases hp with hp | hp <;> rw [hp] at hpass <;> exact hpass.elim
  · rw [hp] at hpass
    cases c <;> exact hpass.elim
  · -- `u` itself moves; an announcement of its own would not leave it in a scan
    have hold : ts ∈ s.held t := by
      rcases held_step hs hts with hold | ⟨ha', hpt⟩
      · exact hold
      · rw [ha] at ha'
        obtain rfl := SysAction.run.inj ha'
        rw [hpt] at hr
        generalize s'.pc u = q, s'.sys = sys, s'.tls u = tls at hr hpass
        cases threadStep_cases hr with
        | announce | panic => exact hpass.elim
    rcases reach_threadStep hr hpass he with ⟨hpass', he'⟩ | ⟨-, hle⟩ | ⟨n, min, hp, hin, he'⟩
    · exact h.safe t ts u e hold hpass' he'
    · exact absurd (h.slots.tid_lt t hreg) (by omega)
    · by_cases hslot : s.sys.announce.slots (s.tls t).tid = 0
          ∨ ts < s.sys.announce.slots (s.tls t).tid
      · exact hscan u n _ min ha hp hin t ts rfl hold hslot e he'
      · -- the scan sees a value at or below the snapshot
        have hlt := he'.birth_lt
        have hne : s.sys.announce.slots (s.tls t).tid ≠ 0 := by omega
        have := AnnouncementTable.scanMin_le_right min hne
        omega

/-- **When held snapshots are protected from running drains.** In every run in which each
announcement comes in time and each scan of a held snapshot's slot finds it protected, no
drain frees an entry born at or after a held snapshot. -/
theorem held_protected {s : SysState F T P}
    {tr : List (Trans (SysState F T P) (SysAction T P))} (h : Run step (init F T P) tr s)
    (hC : ∀ x ∈ tr, AnnouncesInTime x ∧ ScansHeld x) :
    ∀ x ∈ tr, ∀ e, freedBy x = some e → ∀ t ts, ts ∈ x.pre.held t → e.1 < ts := by
  intro x hx e hfree t ts hts
  obtain ⟨tr', ⟨l, rfl⟩, h₁, -⟩ := h.of_mem hx
  have hsafe := h₁.invariant_of (C := fun x => AnnouncesInTime x ∧ ScansHeld x)
    (fun y hy => hC y (List.mem_append_left _ hy)) heldSafe_init
    (fun _ _ _ hI hs hC => heldSafe_step hI hs hC.1 hC.2)
  simp only [freedBy] at hfree
  split at hfree
  · rename_i u hact
    split at hfree
    · rename_i safeTs k hp
      refine hsafe.safe t ts u e hts (by rw [hp]; trivial) ?_
      rw [hp]
      exact (reaches_of_nextFreed hfree).1
    · cases hfree
  · cases hfree

/-! ## One snapshot at a time

When no thread takes a snapshot on top of one it holds, the slot of a thread shows the
snapshot it holds, and every scan is as `ScansHeld` asks: the announcements are what is left
to watch. -/

/-- A thread that takes a snapshot holds none. -/
def TakesOne (x : Trans (SysState F T P) (SysAction T P)) : Prop :=
  ∀ t nowNs elapsed, x.act = .call t (.takeSnapshot nowNs elapsed) → x.pre.held t = []

/-- A thread holds at most one snapshot, its slot shows it, and it holds none while it takes
one. -/
structure SingleInv (s : SysState F T P) : Prop where
  cut : CutInv s
  slots : SlotsInv s
  taking : ∀ t, (s.pc t).taking = true → s.held t = []
  single : ∀ t ts, ts ∈ s.held t →
    s.held t = [ts] ∧ s.sys.announce.slots (s.tls t).tid = ts ∧ 1 ≤ ts

omit [DecidableEq T] in
theorem singleInv_init : SingleInv (init F T P) where
  cut := cutInv_init
  slots := slotsInv_init
  taking := fun t h => by cases h
  single := fun t ts h => by simp [init] at h

/-- The slot of a thread that holds its one snapshot is written by nobody. -/
theorem slot_step {s s' : SysState F T P} {a : SysAction T P} (h : SingleInv s)
    (hs : step s a = some s') {t : T} {ts : Nat} (hold : ts ∈ s.held t) (hnew : ts ∈ s'.held t) :
    s'.sys.announce.slots (s.tls t).tid = s.sys.announce.slots (s.tls t).tid := by
  rcases step_cases hs with ⟨u, -, -, rfl⟩ | ⟨u, c, -, -, rfl⟩ | ⟨u, sys, tls, q, -, hr, rfl⟩
  · rfl
  · rfl
  · -- slots are written by their owners, and the owner of this one would not keep `ts`
    have hreg := h.slots.held t ts hold
    have hother : ∀ v, u ≠ t → (s.pc u).registered = true →
        Function.update s.sys.announce.slots (s.tls u).tid v (s.tls t).tid
          = s.sys.announce.slots (s.tls t).tid := fun v hne hu =>
      Function.update_of_ne (fun heq => hne (h.slots.tid_inj t u hreg hu heq).symm) ..
    obtain ⟨-, -, hw⟩ := threadStep_frame hr
    cases hw with
    | none hw =>
        dsimp only
        rw [hw]
    | announce v hp hq hw =>
        dsimp only
        rw [hw]
        refine hother v (fun hut => ?_) (by rw [hp]; rfl)
        -- while `t` takes a snapshot it holds none
        subst hut
        rw [h.taking u (by rw [hp]; rfl)] at hold
        cases hold
    | release hp hq hw =>
        dsimp only
        rw [hw]
        refine hother 0 (fun hut => ?_) (by rw [hp]; rfl)
        -- after its own release `t` no longer holds `ts`
        subst hut
        simp only [Function.update_self, hp, hq, heldAfter, (h.single u ts hold).1,
          List.tail_cons] at hnew
        cases hnew

/-- An announcement that returns has been stored. -/
theorem announce_spec {sys sys' : PacerSystem F} {t t' : ThreadLocalState F P} {q : SysPc F}
    {ts : Nat} (h : threadStep sys t (.announce ts) = some (sys', t', q))
    (hheld : ts ∈ heldAfter [] (.announce ts) q) :
    q = .idle ∧ sys'.announce.slots = Function.update sys.announce.slots t.tid ts := by
  cases threadStep_cases h with
  | announce ts htid => exact ⟨rfl, rfl⟩
  | panic => cases hheld

theorem singleInv_step {s s' : SysState F T P} {a : SysAction T P} (h : SingleInv s)
    (hs : step s a = some s') (hone : TakesOne ⟨s, a, s'⟩) : SingleInv s' := by
  refine ⟨cutInv_step h.cut hs, slotsInv_step h.slots hs, fun t ht => ?_, fun t ts hts => ?_⟩
  · rcases thread_step_cases hs t with ⟨hp, -, hh, -⟩ | ⟨-, -, hp, -⟩ | ⟨c, ha, -, hp, -, hh⟩ |
      ⟨-, hr, hh⟩
    · rw [hh]
      exact h.taking t (hp ▸ ht)
    · rcases hp with hp | hp <;> rw [hp] at ht <;> cases ht
    · rw [hp] at ht
      cases c with
      | takeSnapshot nowNs elapsed => rw [hh]; exact hone t nowNs elapsed ha
      | release | prepare | postWrite | tryAdvance => cases ht
    · -- a call that is still under way was under way before, and holds nothing yet
      have htaking := taking_threadStep hr ht
      rw [hh, h.taking t htaking]
      unfold heldAfter
      split
      · rename_i hq
        rw [hq] at ht
        cases ht
      · rfl
      · rfl
  · rw [(tid_step hs (registered_of_held_step h.slots hs hts)).2]
    rcases held_step hs hts with hold | ⟨ha, hpt⟩
    · -- held already: nobody wrote the slot
      obtain ⟨hheld, hslot, hpos⟩ := h.single t ts hold
      refine ⟨?_, (slot_step h hs hold hts).trans hslot, hpos⟩
      rcases thread_step_cases hs t with ⟨-, -, hh, -⟩ | ⟨-, -, -, hh, -⟩ | ⟨c, -, -, -, -, hh⟩ |
        ⟨-, -, hh⟩
      · rw [hh, hheld]
      · rw [hh, hheld]
      · rw [hh, hheld]
      · rw [hh, hheld] at hts
        rw [hh, hheld]
        unfold heldAfter at hts ⊢
        split at hts
        · rename_i hp _
          rw [h.taking t (by rw [hp]; rfl)] at hheld
          cases hheld
        · cases hts
        · rfl
    · -- announced in this step: the store of the thread itself
      have hnone := h.taking t (by rw [hpt]; rfl)
      have hpos := (h.cut.snapshot t ts (by rw [hpt]; rfl)).1
      rcases thread_step_cases hs t with ⟨-, -, -, hne, -⟩ | ⟨ha', -⟩ | ⟨c, ha', -⟩ | ⟨-, hr, hh⟩
      · exact absurd ha hne
      · rw [ha] at ha'
        cases ha'
      · rw [ha] at ha'
        cases ha'
      · rw [hh, hpt, hnone] at hts ⊢
        rw [hpt] at hr
        obtain ⟨hq, hslot⟩ := announce_spec hr hts
        rw [hq, hslot]
        exact ⟨rfl, Function.update_self .., hpos⟩

/-- **Scans find single snapshots.** -/
theorem scansHeld_of_takesOne {s : SysState F T P}
    {tr : List (Trans (SysState F T P) (SysAction T P))} (h : Run step (init F T P) tr s)
    (hone : ∀ x ∈ tr, TakesOne x) : ∀ x ∈ tr, ScansHeld x := by
  intro x hx u n i min _ _ _ t ts htid hts hslot
  obtain ⟨tr', ⟨l, rfl⟩, h₁, -⟩ := h.of_mem hx
  have hinv := h₁.invariant_of (C := TakesOne)
    (fun y hy => hone y (List.mem_append_left _ hy)) singleInv_init
    (fun _ _ _ hI hs hC => singleInv_step hI hs hC)
  obtain ⟨-, heq, hpos⟩ := hinv.single t ts hts
  rw [htid] at heq
  omega

/-! ## An announcement that comes too late

Thread `u` takes the snapshot `1` and stalls before it announces it. Thread `t` writes twice
and retires the node born at `1`; its scan finds no announcement. Thread `u` announces `1` and
returns; then thread `t` drains, and frees the node. -/

def lateAnnouncement {T : Type} (t u : T) : List (SysAction T Unit) :=
  [.register t, .register u, .call u (.takeSnapshot 0 0)] ++ List.replicate 16 (.run u)
    ++ [.call t .prepare, .run t, .call t .prepare, .run t, .call t (.postWrite () 1)]
    ++ List.replicate 4 (.run t) ++ [.run u, .run t]

/-- The transition frees a node born at `1` while thread `u` holds the snapshot `1`. -/
def freesHeld {T : Type} (u : T) (x : Trans (SysState ℚ T Unit) (SysAction T Unit)) : Bool :=
  freedBy x = some (1, .owned ()) ∧ x.pre.held u = [1]

theorem held_snapshot_freed :
    ∃ tr s, Run step (init ℚ (Fin 2) Unit) tr s
      ∧ ¬ ∀ x ∈ tr, ∀ e, freedBy x = some e → ∀ t ts, ts ∈ x.pre.held t → e.1 < ts := by
  obtain ⟨tr, s, hrun, hp⟩ := exists_run_of_replay step (init ℚ (Fin 2) Unit)
    (lateAnnouncement 0 1) (fun tr _ => tr.any (freesHeld 1))
    (by decide +kernel)
  obtain ⟨x, hx, hfree⟩ := List.any_eq_true.mp hp
  simp only [freesHeld, decide_eq_true_eq] at hfree
  refine ⟨tr, s, hrun, fun hall => ?_⟩
  exact absurd (hall x hx _ hfree.1 1 1 (by simp [hfree.2])) (lt_irrefl 1)

/-- Snapshots are taken one at a time and announced while no scan is past the slot. -/
def orderly (x : Trans (SysState ℚ (Fin 2) Unit) (SysAction (Fin 2) Unit)) : Bool :=
  match x.act with
  | .call t (.takeSnapshot _ _) => x.pre.held t = []
  | .run t =>
      match x.pre.pc t with
      | .announce _ => ∀ u, ¬ passed (x.pre.tls t).tid (x.pre.pc u)
      | _ => true
  | _ => true

theorem orderly_spec {x : Trans (SysState ℚ (Fin 2) Unit) (SysAction (Fin 2) Unit)}
    (h : orderly x = true) : TakesOne x ∧ AnnouncesInTime x := by
  constructor
  · intro t nowNs elapsed hact
    simpa only [orderly, hact, decide_eq_true_eq] using h
  · intro t ts hact hp u hpass
    simp only [orderly, hact, hp, decide_eq_true_eq] at h
    exact absurd hpass (h u)

/-- Thread `u` holds the snapshot `1` while thread `t` frees a node born at `0`. -/
def orderlyRun {T : Type} (t u : T) : List (SysAction T Unit) :=
  [.register t, .register u, .call u (.takeSnapshot 0 0)] ++ List.replicate 17 (.run u)
    ++ [.call t .prepare, .run t, .call t (.postWrite () 0)] ++ List.replicate 5 (.run t)

theorem held_protected_orderly :
    ∃ tr s, Run step (init ℚ (Fin 2) Unit) tr s ∧ s.held 1 = [1]
      ∧ (s.tls 0).limboBag.len = 0
      ∧ ∀ x ∈ tr, ∀ e, freedBy x = some e → ∀ t ts, ts ∈ x.pre.held t → e.1 < ts := by
  obtain ⟨tr, s, hrun, hp⟩ := exists_run_of_replay step (init ℚ (Fin 2) Unit) (orderlyRun 0 1)
    (fun tr s => tr.all orderly && decide (s.held 1 = [1] ∧ (s.tls 0).limboBag.len = 0))
    (by decide +kernel)
  simp only [Bool.and_eq_true, List.all_eq_true, decide_eq_true_eq] at hp
  obtain ⟨hord, hheld, hbag⟩ := hp
  have hscan := scansHeld_of_takesOne hrun (fun x hx => (orderly_spec (hord x hx)).1)
  exact ⟨tr, s, hrun, hheld, hbag, held_protected hrun
    (fun x hx => ⟨(orderly_spec (hord x hx)).2, hscan x hx⟩)⟩

end SysState

end Pacer.Atomic
