import Pacer.Store.Model

set_option autoImplicit false

/-! # The versions of a key form a chain

Every version that a write supersedes has a successor in its key's list, with nothing in between
(`Superseded`). From then on it waits to be freed, first for the `post_write` of the write that
superseded it and then in a limbo bag (`Waits`). `Chained` says so of every version that has ever
been retired.
-/

namespace Pacer.Store

open Machine

section

variable {F K : Type} [F64 F] [DecidableEq K] {n : Nat}

/-- `v` was superseded by the next version of its key. -/
structure Superseded (s : State F K n) (v : Version K) : Prop where
  born : v.birthTs ∈ s.versions v.key
  replaced : v.retiredAt ∈ s.versions v.key
  lt : v.birthTs < v.retiredAt
  next : ∀ b ∈ s.versions v.key, b ≤ v.birthTs ∨ v.retiredAt ≤ b

omit [F64 F] [DecidableEq K] in
theorem Superseded.congr {s s' : State F K n} {v : Version K} (h : Superseded s v)
    (hver : s'.versions = s.versions) : Superseded s' v := by
  refine ⟨?_, ?_, h.lt, ?_⟩ <;> rw [hver]
  · exact h.born
  · exact h.replaced
  · exact h.next

/-- The version has been superseded and not yet freed: it is in a limbo bag, or handed to a write
in progress. -/
def Waits (s : State F K n) (v : Version K) : Prop :=
  (∃ t, ∃ e ∈ (s.tls t).limboBag.q, e.2.ptr = v) ∨ ∃ t, s.pending t = some v

/-- The versions that wait, thread by thread. -/
def State.waiting (s : State F K n) : List (Version K) :=
  (List.finRange n).flatMap fun t =>
    (s.tls t).limboBag.q.map (fun e => e.2.ptr) ++ (s.pending t).toList

omit [F64 F] [DecidableEq K] in
theorem mem_waiting {s : State F K n} {v : Version K} : v ∈ s.waiting ↔ Waits s v := by
  simp only [State.waiting, List.mem_flatMap, List.mem_finRange, true_and, List.mem_append,
    List.mem_map, Option.mem_toList, Waits]
  exact exists_or

/-- The versions that have been retired, the freed ones included. -/
def Retires (s : State F K n) (v : Version K) : Prop := v ∈ s.freed ∨ Waits s v

structure Chained (s : State F K n) : Prop extends Registered s where
  births_lt : ∀ key, ∀ b ∈ s.versions key, b < s.sys.globalEpoch
  sorted : ∀ key, (s.versions key).Pairwise (· > ·)
  superseded : ∀ v, Retires s v → Superseded s v
  gen_even : s.sys.scc.windowGen % 2 = 0

omit [DecidableEq K] in
theorem chained_init : Chained (init F K n) where
  toRegistered := registered_init
  births_lt := by simp [init]
  sorted := by simp [init]
  superseded := by
    rintro v (h | ⟨t, e, he, -⟩ | ⟨t, h⟩)
    · simp [init] at h
    · simp [init, ThreadLocalState.new, LimboBag.new] at he
    · simp [init] at h
  gen_even := by simp [init, registered_eq, PacerSystem.new, Scc.new]

section

omit [F64 F]

/-- A version installed at the current epoch does not come between a superseded version and
its successor. -/
theorem superseded_prepare {s : State F K n} (h : Chained s) {t : Fin n} {key : K}
    {v : Version K} (hv : Superseded s v) : Superseded (prepare s t key) v := by
  by_cases hk : v.key = key
  · subst hk
    refine ⟨?_, ?_, hv.lt, ?_⟩
    · simpa [prepare] using Or.inr hv.born
    · simpa [prepare] using Or.inr hv.replaced
    · intro b hb
      have hb' : b = s.sys.globalEpoch ∨ b ∈ s.versions v.key := by
        simpa [prepare, PacerSystem.writeOpPrepare, VersionNode.new] using hb
      rcases hb' with rfl | hb'
      · exact Or.inr (le_of_lt (h.births_lt _ _ hv.replaced))
      · exact hv.next b hb'
  · exact ⟨by simpa [prepare, hk] using hv.born, by simpa [prepare, hk] using hv.replaced,
      hv.lt, by simpa [prepare, hk] using hv.next⟩

/-- The version a write supersedes is the newest of its key. -/
theorem superseded_head {s : State F K n} (h : Chained s) {t : Fin n} {key : K} {b : Nat}
    (hb : (s.versions key).head? = some b) :
    Superseded (prepare s t key) ⟨key, b, s.sys.globalEpoch⟩ := by
  obtain ⟨l, hl⟩ : ∃ l, s.versions key = b :: l := by
    cases hk : s.versions key with
    | nil => simp [hk] at hb
    | cons a l =>
        obtain rfl : a = b := by simpa [hk] using hb
        exact ⟨l, rfl⟩
  have hsorted := h.sorted key
  rw [hl, List.pairwise_cons] at hsorted
  refine ⟨?_, ?_, ?_, ?_⟩
  · simp [prepare, hl]
  · simp [prepare, PacerSystem.writeOpPrepare, VersionNode.new]
  · exact h.births_lt key b (by simp [hl])
  · intro b' hb'
    have hb'' : b' = s.sys.globalEpoch ∨ b' = b ∨ b' ∈ l := by
      simpa [prepare, PacerSystem.writeOpPrepare, VersionNode.new, hl] using hb'
    rcases hb'' with rfl | rfl | hb''
    · exact Or.inr le_rfl
    · exact Or.inl le_rfl
    · exact Or.inl (le_of_lt (hsorted.1 b' hb''))

/-- A write makes one version wait, the newest of its key. -/
theorem waits_prepare {s : State F K n} {t : Fin n} {key : K} {v : Version K}
    (h : Waits (prepare s t key) v) :
    Waits s v ∨ ∃ b, (s.versions key).head? = some b ∧ v = ⟨key, b, s.sys.globalEpoch⟩ := by
  rcases h with ⟨u, e, he, rfl⟩ | ⟨u, h⟩
  · refine Or.inl (Or.inl ⟨u, e, ?_, rfl⟩)
    by_cases hu : u = t
    · subst hu; simpa [prepare, PacerSystem.writeOpPrepare] using he
    · simpa [prepare, hu] using he
  · by_cases hu : u = t
    · subst hu
      have hmap : (s.versions key).head?.map
          (fun b => (⟨key, b, s.sys.globalEpoch⟩ : Version K)) = some v := by
        simpa [prepare, PacerSystem.writeOpPrepare] using h
      obtain ⟨b, hb, rfl⟩ := Option.map_eq_some_iff.mp hmap
      exact Or.inr ⟨b, hb, rfl⟩
    · exact Or.inl (Or.inr ⟨u, by simpa [prepare, hu] using h⟩)

end

omit [F64 F] [DecidableEq K] in
/-- The entries of the bag after the retired version is queued were waiting before. -/
theorem waits_of_mem_push {s : State F K n} {t : Fin n} {old : Version K}
    (hp : s.pending t = some old) {e : Nat × Retired (Version K)}
    (he : e ∈ ((s.tls t).limboBag.push old.birthTs old).q) : Waits s e.2.ptr := by
  rw [LimboBag.push_q, List.mem_append, List.mem_singleton] at he
  rcases he with he | rfl
  · exact Or.inl ⟨t, e, he, rfl⟩
  · exact Or.inr ⟨t, hp⟩

/-- A `post_write` moves the waiting versions around, and frees some of them. -/
theorem waits_postWrite {s s' : State F K n} {t : Fin n}
    (hs : step s (.postWrite t) = some s') {v : Version K} (h : Waits s' v) : Waits s v := by
  obtain ⟨old, safeTs, hp, -, htls, hbag, -, -, hpend, -⟩ := step_postWrite hs
  rcases h with ⟨u, e, he, rfl⟩ | ⟨u, h⟩
  · by_cases hu : u = t
    · subst hu
      rw [hbag] at he
      exact waits_of_mem_push hp (LimboBag.mem_of_mem_drain_fst he)
    · rw [htls, Function.update_of_ne hu] at he
      exact Or.inl ⟨u, e, he, rfl⟩
  · by_cases hu : u = t
    · subst hu; simp [hpend] at h
    · rw [hpend, Function.update_of_ne hu] at h
      exact Or.inr ⟨u, h⟩

theorem waits_of_mem_freedBy {s s' : State F K n} {t : Fin n}
    (hs : step s (.postWrite t) = some s') {v : Version K}
    (h : v ∈ freedBy ⟨s, .postWrite t, s'⟩) : Waits s v := by
  obtain ⟨e, he, rfl⟩ := (mem_freedBy_postWrite hs).mp h
  obtain ⟨old, hp, hmem⟩ := reaches_mem he
  exact waits_of_mem_push hp hmem

theorem waits_takeSnapshot {s s' : State F K n} {t : Fin n} {nowNs elapsed : Nat}
    (hs : step s (.takeSnapshot t nowNs elapsed) = some s') {v : Version K} (h : Waits s' v) :
    Waits s v := by
  obtain ⟨_, _, -, -, -, -, -, -, htls, -, hpend, -⟩ := step_takeSnapshot hs
  rcases h with ⟨u, e, he, rfl⟩ | ⟨u, h⟩
  · refine Or.inl ⟨u, e, ?_, rfl⟩
    rw [htls] at he
    by_cases hu : u = t
    · subst hu; simpa using he
    · simpa [hu] using he
  · exact Or.inr ⟨u, hpend ▸ h⟩

theorem waits_release {s s' : State F K n} {t : Fin n} (hs : step s (.release t) = some s')
    {v : Version K} (h : Waits s' v) : Waits s v := by
  obtain ⟨-, -, htls, -, hpend, -⟩ := step_release hs
  rcases h with ⟨u, e, he, rfl⟩ | ⟨u, h⟩
  · exact Or.inl ⟨u, e, htls ▸ he, rfl⟩
  · exact Or.inr ⟨u, hpend ▸ h⟩

/-- What has been retired after a step had been retired before, or is superseded by it. -/
theorem retires_step {s s' : State F K n} {a : Action K n} (hs : step s a = some s')
    {v : Version K} (h : Retires s' v) :
    Retires s v ∨ ∃ t key b, a = .prepare t key ∧ (s.versions key).head? = some b
      ∧ v = ⟨key, b, s.sys.globalEpoch⟩ := by
  rcases h with h | h
  · by_cases hold : v ∈ s.freed
    · exact Or.inl (Or.inl hold)
    · cases a with
      | prepare t key =>
          obtain ⟨-, rfl⟩ := step_prepare hs
          exact absurd h hold
      | postWrite t =>
          obtain ⟨_, _, -, -, -, -, -, hfreed, -⟩ := step_postWrite hs
          refine Or.inl (Or.inr (waits_of_mem_freedBy hs ?_))
          rw [hfreed, List.mem_append] at h
          simpa [freedBy, hfreed] using h.resolve_left hold
      | takeSnapshot t nowNs elapsed =>
          obtain ⟨_, _, _, _, _, _, _, _, _, _, _, hfreed⟩ := step_takeSnapshot hs
          exact absurd (hfreed ▸ h) hold
      | release t =>
          obtain ⟨_, _, _, _, _, hfreed⟩ := step_release hs
          exact absurd (hfreed ▸ h) hold
  · cases a with
    | prepare t key =>
        obtain ⟨-, rfl⟩ := step_prepare hs
        rcases waits_prepare h with h | ⟨b, hb, rfl⟩
        · exact Or.inl (Or.inr h)
        · exact Or.inr ⟨t, key, b, rfl, hb, rfl⟩
    | postWrite t => exact Or.inl (Or.inr (waits_postWrite hs h))
    | takeSnapshot t nowNs elapsed => exact Or.inl (Or.inr (waits_takeSnapshot hs h))
    | release t => exact Or.inl (Or.inr (waits_release hs h))

theorem chained_step {s s' : State F K n} {a : Action K n} (h : Chained s)
    (hs : step s a = some s') : Chained s' := by
  have hreg := registered_step h.toRegistered hs
  cases a with
  | prepare t key =>
      have hret := fun v => retires_step (v := v) hs
      obtain ⟨-, rfl⟩ := step_prepare hs
      refine ⟨hreg, fun k b hb => ?_, fun k => ?_, fun v hv => ?_, h.gen_even⟩
      · show b < s.sys.globalEpoch + 1
        by_cases hk : k = key
        · subst hk
          have hb' : b = s.sys.globalEpoch ∨ b ∈ s.versions k := by
            simpa [prepare, PacerSystem.writeOpPrepare, VersionNode.new] using hb
          rcases hb' with rfl | hb'
          · omega
          · have := h.births_lt k b hb'; omega
        · have := h.births_lt k b (by simpa [prepare, hk] using hb); omega
      · by_cases hk : k = key
        · subst hk
          simp only [prepare, PacerSystem.writeOpPrepare, VersionNode.new,
            Function.update_self, List.pairwise_cons]
          exact ⟨fun b hb => h.births_lt k b hb, h.sorted k⟩
        · simpa [prepare, hk] using h.sorted k
      · -- the version that the new one replaces is superseded from now on
        rcases hret v hv with hv' | ⟨t', key', b, heq, hb, rfl⟩
        · exact superseded_prepare h (h.superseded v hv')
        · obtain ⟨rfl, rfl⟩ := Action.prepare.inj heq
          exact superseded_head h hb
  | postWrite t =>
      have hret := fun v => retires_step (v := v) hs
      obtain ⟨_, _, -, -, -, -, -, -, -, hver, -, hep, hscc, -⟩ := step_postWrite hs
      refine ⟨hreg, fun k b hb => ?_, by rw [hver]; exact h.sorted, fun v hv => ?_,
        by rw [hscc]; exact h.gen_even⟩
      · rw [hver] at hb
        have := h.births_lt k b hb
        omega
      · have hv' := (hret v hv).resolve_right (by rintro ⟨_, _, _, heq, -⟩; cases heq)
        exact (h.superseded v hv').congr hver
  | takeSnapshot t nowNs elapsed =>
      have hret := fun v => retires_step (v := v) hs
      obtain ⟨scc, ts, hts, -, -, hscc, hep, -, -, hver, -, -⟩ := step_takeSnapshot hs
      refine ⟨hreg, by rw [hver, hep]; exact h.births_lt, by rw [hver]; exact h.sorted,
        fun v hv => ?_, ?_⟩
      · have hv' := (hret v hv).resolve_right (by rintro ⟨_, _, _, heq, -⟩; cases heq)
        exact (h.superseded v hv').congr hver
      · -- a call that runs alone leaves the generation as it is or adds two
        rw [hscc]
        obtain ⟨-, ⟨-, -, rfl⟩ | ⟨-, -, hgen, -⟩⟩ := Scc.takeSnapshot_spec hts
        · exact h.gen_even
        · have := h.gen_even
          simp only [Scc.recordLatencyNs]
          omega
  | release t =>
      have hret := fun v => retires_step (v := v) hs
      obtain ⟨-, hsys, -, hver, -, -⟩ := step_release hs
      refine ⟨hreg, by rw [hver, hsys]; exact h.births_lt, by rw [hver]; exact h.sorted,
        fun v hv => ?_, by rw [hsys]; exact h.gen_even⟩
      have hv' := (hret v hv).resolve_right (by rintro ⟨_, _, _, heq, -⟩; cases heq)
      exact (h.superseded v hv').congr hver

end

end Pacer.Store
