import Pacer.Store.Chain

set_option autoImplicit false

/-! # Does a held snapshot protect the versions it reads?

`drain` lets an entry go when it was *born* before the oldest announced snapshot. What a held
snapshot needs is that the entry was *superseded* before it. The two tests differ on the
versions that straddle the snapshot, born before and superseded at or after it, and these are
the versions the snapshot reads. Such a version survives its supersession only in the shelter of
another snapshot, one that is held and no later than its birth. `held_versions_kept`: in a history
in which no version that a held snapshot reads is ever without shelter, nothing that a held
snapshot reads is freed.
-/

namespace Pacer.Store

open Machine

section

variable {F K : Type} [F64 F] [DecidableEq K] {n : Nat}

/-- The step frees no version that a held snapshot reads. -/
def FreesInvisible (x : Trans (State F K n) (Action K n)) : Prop :=
  ∀ v ∈ freedBy x, ∀ t, ∀ ts ∈ x.pre.held t, ¬ v.visibleAt ts

/-- A snapshot held by one of the threads `who` is no later than `b`: a drain that sees it frees
nothing born at `b`. -/
def Sheltered (s : State F K n) (who : Fin n → Prop) (b : Nat) : Prop :=
  ∃ t, who t ∧ ∃ ts ∈ s.held t, ts ≤ b

/-- One of the threads `who` holds a snapshot that reads `v`. -/
def ReadBy (s : State F K n) (who : Fin n → Prop) (v : Version K) : Prop :=
  ∃ t, who t ∧ ∃ ts ∈ s.held t, v.visibleAt ts

/-- A call at `nowNs` joins the published window. -/
def Coalesces (scc : Scc) (nowNs : Nat) : Prop :=
  scc.windowGen ≠ 0 ∧ nowNs - scc.windowOpenAt < scc.adaptiveWNs

/-- The step leaves no superseded version without shelter that a held snapshot reads: a write
supersedes a version that a held snapshot reads, a call coalesces onto a timestamp that reads a
version still waiting to be freed, and a release takes a snapshot away, each only if a held
snapshot that is no later than the birth of the version is left. -/
def Shelters (x : Trans (State F K n) (Action K n)) : Prop :=
  match x.act with
  | .prepare _ key => ∀ b ∈ (x.pre.versions key).head?,
      (∃ t, ∃ ts ∈ x.pre.held t, b < ts) → Sheltered x.pre (fun _ => True) b
  | .takeSnapshot _ nowNs _ => Coalesces x.pre.sys.scc nowNs → ∀ v, Waits x.pre v →
      v.visibleAt x.pre.sys.scc.currentTs → Sheltered x.pre (fun _ => True) v.birthTs
  | .release t => ∀ v, Waits x.pre v → ReadBy x.pre (· ≠ t) v →
      Sheltered x.pre (· ≠ t) v.birthTs
  | .postWrite _ => True

/-- A snapshot is taken only by a thread that holds none. -/
def TakesOne (x : Trans (State F K n) (Action K n)) : Prop :=
  match x.act with
  | .takeSnapshot t _ _ => x.pre.held t = []
  | _ => True

instance : (x : Trans (State F K n) (Action K n)) → Decidable (TakesOne x)
  | ⟨s, .takeSnapshot t _ _, _⟩ => inferInstanceAs (Decidable (s.held t = []))
  | ⟨_, .prepare _ _, _⟩ => isTrue trivial
  | ⟨_, .postWrite _, _⟩ => isTrue trivial
  | ⟨_, .release _, _⟩ => isTrue trivial

instance (s : State F K n) (who : Fin n → Prop) [DecidablePred who] (b : Nat) :
    Decidable (Sheltered s who b) :=
  inferInstanceAs (Decidable (∃ t, who t ∧ ∃ ts ∈ s.held t, ts ≤ b))

instance (s : State F K n) (who : Fin n → Prop) [DecidablePred who] (v : Version K) :
    Decidable (ReadBy s who v) :=
  inferInstanceAs (Decidable (∃ t, who t ∧ ∃ ts ∈ s.held t, v.visibleAt ts))

instance (scc : Scc) (nowNs : Nat) : Decidable (Coalesces scc nowNs) :=
  inferInstanceAs (Decidable (_ ∧ _))

instance (s : State F K n) (p : Version K → Prop) [DecidablePred p] :
    Decidable (∀ v, Waits s v → p v) :=
  decidable_of_iff (∀ v ∈ s.waiting, p v) (forall_congr' fun _ => by rw [mem_waiting])

instance : (x : Trans (State F K n) (Action K n)) → Decidable (Shelters x)
  | ⟨s, .prepare _ key, _⟩ => inferInstanceAs (Decidable (∀ b ∈ (s.versions key).head?,
      (∃ t, ∃ ts ∈ s.held t, b < ts) → Sheltered s (fun _ => True) b))
  | ⟨s, .takeSnapshot _ nowNs _, _⟩ => inferInstanceAs (Decidable (Coalesces s.sys.scc nowNs →
      ∀ v, Waits s v → v.visibleAt s.sys.scc.currentTs →
        Sheltered s (fun _ => True) v.birthTs))
  | ⟨s, .release t, _⟩ => inferInstanceAs (Decidable (∀ v, Waits s v → ReadBy s (· ≠ t) v →
      Sheltered s (· ≠ t) v.birthTs))
  | ⟨_, .postWrite _, _⟩ => isTrue trivial

instance (x : Trans (State F K n) (Action K n)) : Decidable (FreesInvisible x) :=
  inferInstanceAs (Decidable (∀ v ∈ freedBy x, ∀ t, ∀ ts ∈ x.pre.held t, ¬ v.visibleAt ts))

/-! ## The announcement table shows the held snapshots -/

structure Announced (s : State F K n) : Prop extends Registered s where
  epoch_ne : s.sys.globalEpoch ≠ 0
  window_ne : s.sys.scc.windowGen ≠ 0 → s.sys.scc.currentTs ≠ 0
  slot : ∀ t, ∀ ts ∈ s.held t,
    s.held t = [ts] ∧ s.sys.announce.slots t = ts ∧ ts ≠ 0
  birth : ∀ t, ∀ e ∈ (s.tls t).limboBag.q, e.1 = e.2.ptr.birthTs

omit [DecidableEq K] in
theorem announced_init : Announced (init F K n) where
  toRegistered := registered_init
  epoch_ne := by simp [init, registered_eq, PacerSystem.new]
  window_ne := by simp [init, registered_eq, PacerSystem.new, Scc.new]
  slot := by simp [init]
  birth := by simp [init, ThreadLocalState.new, LimboBag.new]

omit [F64 F] [DecidableEq K] in
/-- The entries of the bag after the retired version is queued carry their birth stamps. -/
theorem birth_of_mem_push {s : State F K n} (h : Announced s) {t : Fin n} {old : Version K}
    {e : Nat × Retired (Version K)}
    (he : e ∈ ((s.tls t).limboBag.push old.birthTs old).q) : e.1 = e.2.ptr.birthTs := by
  rw [LimboBag.push_q, List.mem_append, List.mem_singleton] at he
  rcases he with he | rfl
  · exact h.birth t e he
  · rfl

omit [DecidableEq K] in
/-- A returned timestamp is not the `0` that marks a free slot. -/
theorem returned_ne_zero {s : State F K n} (h : Announced s) {scc : Scc} {nowNs ts : Nat}
    (hs : s.sys.scc.takeSnapshot F nowNs s.sys.globalEpoch = some (scc, ts)) :
    ts ≠ 0 ∧ (scc.windowGen ≠ 0 → scc.currentTs ≠ 0) := by
  obtain ⟨-, ⟨hc, rfl, rfl⟩ | ⟨-, rfl, -, hts, -⟩⟩ := Scc.takeSnapshot_spec hs
  · exact ⟨h.window_ne hc.1, fun hg => h.window_ne hg⟩
  · exact ⟨h.epoch_ne, fun _ => hts ▸ h.epoch_ne⟩

theorem announced_step {s s' : State F K n} {a : Action K n} (h : Announced s)
    (hs : step s a = some s') (hone : TakesOne ⟨s, a, s'⟩) : Announced s' := by
  have hreg := registered_step h.toRegistered hs
  cases a with
  | prepare t key =>
      obtain ⟨-, rfl⟩ := step_prepare hs
      refine ⟨hreg, ?_, h.window_ne, h.slot, fun u e he => ?_⟩
      · simp [prepare, PacerSystem.writeOpPrepare]
      · by_cases hu : u = t
        · subst hu
          exact h.birth u e (by simpa [prepare, PacerSystem.writeOpPrepare] using he)
        · exact h.birth u e (by simpa [prepare, hu] using he)
  | postWrite t =>
      obtain ⟨old, safeTs, -, -, htls, hbag, -, -, -, -, hheld, hep, hscc, hann⟩ :=
        step_postWrite hs
      refine ⟨hreg, ?_, ?_, ?_, fun u e he => ?_⟩
      · have := h.epoch_ne; omega
      · rw [hscc]; exact h.window_ne
      · rw [hheld, hann]; exact h.slot
      · by_cases hu : u = t
        · subst hu
          rw [hbag] at he
          exact birth_of_mem_push h (LimboBag.mem_of_mem_drain_fst he)
        · rw [htls, Function.update_of_ne hu] at he
          exact h.birth u e he
  | takeSnapshot t nowNs elapsed =>
      obtain ⟨scc, ts, hts, -, hheld, hscc, hep, hann, htls, -, -, -⟩ := step_takeSnapshot hs
      obtain ⟨hne, hwin⟩ := returned_ne_zero h hts
      refine ⟨hreg, by rw [hep]; exact h.epoch_ne, by rw [hscc]; exact hwin,
        fun u ts' hts' => ?_, fun u e he => ?_⟩
      · rw [hheld] at hts' ⊢
        rw [hann, h.tid]
        by_cases hu : u = t
        · subst hu
          -- the slot is overwritten, which is harmless as nothing was held
          have hnone : s.held u = [] := hone
          simp only [Function.update_self, hnone, List.mem_singleton] at hts' ⊢
          subst hts'
          exact ⟨rfl, rfl, hne⟩
        · rw [Function.update_of_ne hu] at hts' ⊢
          have hval : (u : Nat) ≠ t := fun hut => hu (Fin.ext hut)
          simpa [Function.update_of_ne hval] using h.slot u ts' hts'
      · rw [htls] at he
        by_cases hu : u = t
        · subst hu
          exact h.birth u e (by simpa using he)
        · exact h.birth u e (by simpa [hu] using he)
  | release t =>
      obtain ⟨hheld, hsys, htls, -, -, -⟩ := step_release hs
      refine ⟨hreg, by rw [hsys]; exact h.epoch_ne, by rw [hsys]; exact h.window_ne,
        fun u ts hts => ?_, by rw [htls]; exact h.birth⟩
      rw [hheld] at hts ⊢
      rw [hsys, h.tid]
      by_cases hu : u = t
      · subst hu
        -- the thread held at most this one snapshot
        rw [Function.update_self] at hts
        have hlast := (h.slot u ts (List.mem_of_mem_tail hts)).1
        simp [hlast] at hts
      · rw [Function.update_of_ne hu] at hts ⊢
        have hval : (u : Nat) ≠ t := fun hut => hu (Fin.ext hut)
        simpa [Function.update_of_ne hval] using h.slot u ts hts

/-! ## Which histories are safe -/

omit [F64 F] [DecidableEq K] in
/-- A scan is no later than any held snapshot. -/
theorem safeReclaimTs_le_held {s : State F K n} (h : Announced s) {t : Fin n} {ts safeTs : Nat}
    (hts : ts ∈ s.held t) (hsafe : s.sys.safeReclaimTs = some safeTs) : safeTs ≤ ts := by
  obtain ⟨-, hslot, hne⟩ := h.slot t ts hts
  have hle := AnnouncementTable.minActiveTs_le hsafe (i := t) (by rw [h.count]; exact t.isLt)
    (by rw [hslot]; exact hne)
  rwa [hslot] at hle

/-- No version that waits and that a held snapshot reads is without shelter. -/
def AllSheltered (s : State F K n) : Prop :=
  ∀ v, Waits s v → ReadBy s (fun _ => True) v → Sheltered s (fun _ => True) v.birthTs

omit [DecidableEq K] in
theorem allSheltered_init : AllSheltered (init F K n) := by
  rintro v - ⟨t, -, ts, hts, -⟩
  cases hts

omit [F64 F] [DecidableEq K] in
/-- A shelter stays when nothing is released. -/
theorem Sheltered.mono {s s' : State F K n} {who : Fin n → Prop} {b : Nat}
    (h : Sheltered s who b) (hheld : ∀ t, who t → ∀ ts ∈ s.held t, ts ∈ s'.held t) :
    Sheltered s' (fun _ => True) b := by
  obtain ⟨t, hwho, ts, hts, hle⟩ := h
  exact ⟨t, trivial, ts, hheld t hwho ts hts, hle⟩

omit [F64 F] in
/-- A version that a write supersedes is read by the held snapshots later than its birth. -/
theorem allSheltered_prepare {s : State F K n} {t : Fin n} {key : K}
    (hI : AllSheltered s) (hshelter : Shelters ⟨s, .prepare t key, prepare s t key⟩) :
    AllSheltered (prepare s t key) := by
  intro v hv hread
  rcases waits_prepare hv with hv | ⟨b, hb, rfl⟩
  · exact hI v hv hread
  · obtain ⟨u, -, ts, hts, hlt, -⟩ := hread
    exact hshelter b hb ⟨u, ts, hts, hlt⟩

/-- The window-opening path returns the epoch, which reads nothing that was superseded. -/
theorem allSheltered_takeSnapshot {s s' : State F K n} {t : Fin n} {nowNs elapsed : Nat}
    (h : Chained s) (hI : AllSheltered s)
    (hs : step s (.takeSnapshot t nowNs elapsed) = some s')
    (hshelter : Shelters ⟨s, .takeSnapshot t nowNs elapsed, s'⟩) : AllSheltered s' := by
  obtain ⟨scc, ts, hscc, -, hheld, -⟩ := step_takeSnapshot hs
  have hkept : ∀ u, True → ∀ ts' ∈ s.held u, ts' ∈ s'.held u := by
    intro u _ ts' hts'
    rw [hheld]
    by_cases hu : u = t
    · subst hu
      rw [Function.update_self]
      exact List.mem_cons_of_mem _ hts'
    · rwa [Function.update_of_ne hu]
  intro v hv hread
  have hwait := waits_takeSnapshot hs hv
  obtain ⟨u, -, ts', hts', hvis⟩ := hread
  -- the snapshot that reads `v` was held before, or it is the new one
  have hcases : ts' ∈ s.held u ∨ ts' = ts := by
    rw [hheld] at hts'
    by_cases hu : u = t
    · subst hu
      rw [Function.update_self] at hts'
      exact (List.mem_cons.mp hts').symm
    · rw [Function.update_of_ne hu] at hts'
      exact Or.inl hts'
  rcases hcases with hold | rfl
  · exact (hI v hwait ⟨u, trivial, ts', hold, hvis⟩).mono hkept
  · obtain ⟨-, ⟨hhit, rfl, -⟩ | ⟨-, rfl, -⟩⟩ := Scc.takeSnapshot_spec hscc
    · exact (hshelter hhit v hwait hvis).mono hkept
    · have hlt := h.births_lt v.key _ (h.superseded v (Or.inr hwait)).replaced
      have := hvis.2
      omega

theorem allSheltered_release {s s' : State F K n} {t : Fin n}
    (hann : Announced s) (hs : step s (.release t) = some s')
    (hshelter : Shelters ⟨s, .release t, s'⟩) : AllSheltered s' := by
  obtain ⟨hheld, -⟩ := step_release hs
  have hothers : ∀ u, u ≠ t → s'.held u = s.held u := fun u hu => by
    rw [hheld, Function.update_of_ne hu]
  intro v hv hread
  obtain ⟨u, -, ts, hts, hvis⟩ := hread
  have hu : u ≠ t := by
    rintro rfl
    -- the thread held at most the snapshot that it released
    rw [hheld, Function.update_self] at hts
    have hlast := (hann.slot u ts (List.mem_of_mem_tail hts)).1
    simp [hlast] at hts
  have hread : ReadBy s (· ≠ t) v := ⟨u, hu, ts, hothers u hu ▸ hts, hvis⟩
  exact (hshelter v (waits_release hs hv) hread).mono fun w hw ts' hts' =>
    (hothers w hw).symm ▸ hts'

theorem allSheltered_step {s s' : State F K n} {a : Action K n} (h : Chained s)
    (hann : Announced s) (hI : AllSheltered s) (hs : step s a = some s')
    (hshelter : Shelters ⟨s, a, s'⟩) : AllSheltered s' := by
  cases a with
  | prepare t key =>
      obtain ⟨-, rfl⟩ := step_prepare hs
      exact allSheltered_prepare hI hshelter
  | postWrite t =>
      obtain ⟨_, _, -, -, -, -, -, -, -, -, hheld, -⟩ := step_postWrite hs
      intro v hv hread
      simp only [ReadBy, Sheltered, hheld] at hread ⊢
      exact hI v (waits_postWrite hs hv) hread
  | takeSnapshot t nowNs elapsed => exact allSheltered_takeSnapshot h hI hs hshelter
  | release t => exact allSheltered_release hann hs hshelter

/-- **A step from a state in which all is sheltered frees nothing that a held snapshot reads**:
the scan of a `post_write` sees the shelter, and what was born at or after it stays. -/
theorem freesInvisible_of_sheltered {s s' : State F K n} {a : Action K n} (hann : Announced s)
    (hI : AllSheltered s) (hs : step s a = some s') : FreesInvisible ⟨s, a, s'⟩ := by
  intro v hv u ts hts hvis
  by_cases hact : ∃ t, a = .postWrite t
  · obtain ⟨t, rfl⟩ := hact
    obtain ⟨_, safeTs, _, hsafe, _⟩ := step_postWrite hs
    obtain ⟨w, -, ts', hts', hle⟩ :=
      hI v (waits_of_mem_freedBy hs hv) ⟨u, trivial, ts, hts, hvis⟩
    obtain ⟨e, he, rfl⟩ := (mem_freedBy_postWrite hs).mp hv
    obtain ⟨old, -, hmem⟩ := reaches_mem he
    have hborn := reaches_birth_lt he hsafe
    rw [birth_of_mem_push hann hmem] at hborn
    have := safeReclaimTs_le_held hann hts' hsafe
    omega
  · rw [freedBy_eq_nil hs (fun t ht => hact ⟨t, ht⟩)] at hv
    cases hv

/-- **When held snapshots are protected.** In every history in which every thread holds at most
one snapshot and no version that a held snapshot reads is left without shelter, no step frees a
version that a held snapshot reads. -/
theorem held_versions_kept {s : State F K n} {tr : List (Trans (State F K n) (Action K n))}
    (hrun : Run step (init F K n) tr s) (hone : ∀ x ∈ tr, TakesOne x)
    (hshelter : ∀ x ∈ tr, Shelters x) : ∀ x ∈ tr, FreesInvisible x := by
  intro x hx
  obtain ⟨tr', ⟨l, rfl⟩, h₁, h₂⟩ := hrun.of_mem hx
  have hI : Chained x.pre ∧ Announced x.pre ∧ AllSheltered x.pre := by
    refine h₁.invariant_of
      (I := fun r => Chained r ∧ Announced r ∧ AllSheltered r)
      (C := fun y => TakesOne y ∧ Shelters y) (fun y hy => ?_)
      ⟨chained_init, announced_init, allSheltered_init⟩ ?_
    · exact ⟨hone y (List.mem_append_left _ hy), hshelter y (List.mem_append_left _ hy)⟩
    · exact fun r a r' hI hs hC => ⟨chained_step hI.1 hs, announced_step hI.2.1 hs hC.1,
        allSheltered_step hI.1 hI.2.1 hI.2.2 hs hC.2⟩
  exact freesInvisible_of_sheltered hI.2.1 hI.2.2 h₂

end

/-! ## A straddling version

Thread `0` installs a version at `1`, thread `1` takes the snapshot `2`, and thread `0`
overwrites the version at `2`: the scan returns `2`, the version was born at `1 < 2`, and it
is freed while the snapshot `2` still reads it. -/

def straddlingHistory (t u : Fin 2) : List (Action Unit 2) :=
  [.prepare t (), .takeSnapshot u 0 0, .prepare t (), .postWrite t]

theorem straddling_version_freed :
    ∃ tr s, Run step (init ℚ Unit 2) tr s ∧ (∀ x ∈ tr, TakesOne x)
      ∧ ¬ ∀ x ∈ tr, FreesInvisible x := by
  obtain ⟨tr, s, hrun, hp⟩ := exists_run_of_replay step (init ℚ Unit 2) (straddlingHistory 0 1)
    (fun tr _ => decide (∀ x ∈ tr, TakesOne x) && !decide (∀ x ∈ tr, FreesInvisible x))
    (by decide +kernel)
  simp only [Bool.and_eq_true, Bool.not_eq_true', decide_eq_true_eq,
    decide_eq_false_iff_not] at hp
  exact ⟨tr, s, hrun, hp.1, hp.2⟩

/-! ## A sheltered version

Thread `1` takes the snapshot `1` before the version of thread `0` is born at `1`, thread `2` takes
the snapshot `2` that reads it. The write at `2` supersedes the version while both are held, and
its `post_write` leaves it alone; it is freed by the next write after the two releases. -/

def shelteredHistory (t u w : Fin 3) : List (Action Unit 3) :=
  [.takeSnapshot u 0 0, .prepare t (), .takeSnapshot w 10000000 0, .prepare t (), .postWrite t,
    .release w, .release u, .prepare t (), .postWrite t]

theorem held_versions_kept_sheltered :
    ∃ tr s, Run step (init ℚ Unit 3) tr s
      ∧ (∃ x ∈ tr, x.act = .postWrite 0 ∧ freedBy x = []
        ∧ ∃ v ∈ x.post.waiting, ReadBy x.post (fun _ => True) v)
      ∧ (∃ x ∈ tr, freedBy x = [⟨(), 1, 2⟩, ⟨(), 2, 3⟩])
      ∧ (∀ x ∈ tr, FreesInvisible x) := by
  obtain ⟨tr, s, hrun, hp⟩ := exists_run_of_replay step (init ℚ Unit 3)
    (shelteredHistory 0 1 2)
    (fun tr _ => decide (∀ x ∈ tr, TakesOne x) && decide (∀ x ∈ tr, Shelters x)
      && decide (∃ x ∈ tr, x.act = .postWrite 0 ∧ freedBy x = []
        ∧ ∃ v ∈ x.post.waiting, ReadBy x.post (fun _ => True) v)
      && decide (∃ x ∈ tr, freedBy x = [⟨(), 1, 2⟩, ⟨(), 2, 3⟩]))
    (by decide +kernel)
  simp only [Bool.and_eq_true, decide_eq_true_eq] at hp
  obtain ⟨⟨⟨hone, hshelter⟩, hkept⟩, hfreed⟩ := hp
  exact ⟨tr, s, hrun, hkept, hfreed, held_versions_kept hrun hone hshelter⟩

end Pacer.Store
